import OperatingSystems.LibraryStreams
import OperatingSystems.LookupResolve

/-!
How the results reach their file. Every resolver has a stream of its own open on `results.txt` and
never closes it: the mutex `results_lock` orders the calls of `fprintf`, but not the moments at
which the streams give up what they have gathered. A system state is a state of the lookup together
with these streams. The file is taken to be one that nothing else touches: the command line names
it neither as the service log nor as an input file.
-/

namespace OperatingSystems.Lookup

open Runs Threads Records Streams

variable {m n : Nat}

/-! ### The streams -/

/-- The lookup and the resolvers' `FILE* results`. -/
structure Printing (m n : Nat) where
  state : State (List UInt8) m n
  results : Appended (Fin n) UInt8

/-- A step of the lookup, `sent` being what leaves the stream if `fprintf` overflows it, or a flush
of a resolver's stream. -/
inductive Output (m n : Nat) where
  | act (a : Action m n) (sent : Nat)
  | flush (j : Fin n)

/-- What a step prints to `results.txt`, and on whose stream. -/
def printed (env : Env (List UInt8)) (s : State (List UInt8) m n) :
    Action m n → Option (Fin n × (List UInt8 × Option String))
  | .resolver j _ =>
      match (s.resolver j).pc with
      | .lockResults domainName => some (j, (domainName, env.dnslookup domainName))
      | _ => none
  | _ => none

/-- A step, with streams that have buffers of `size` bytes. -/
def printStep (env : Env (List UInt8)) (size : Nat) (p : Printing m n) :
    Output m n → Option (Printing m n)
  | .act a sent =>
      (step env p.state a).map fun s =>
        { state := s
          results :=
            match printed env p.state a with
            | none => p.results
            | some (j, result) => p.results.print size j (resultLine result) sent }
  | .flush j => some { p with results := p.results.flush j }

/-- What a step prints does not overflow the stream that it is printed on. -/
def RoomLeft (env : Env (List UInt8)) (size : Nat) (p : Printing m n) : Output m n → Prop
  | .act a _ => ∀ j result, printed env p.state a = some (j, result) →
      (p.results.pending j ++ resultLine result).length < size
  | .flush _ => True

/-- The streams are opened when the resolvers start. -/
def printStart (args : Args (List UInt8)) :
    Printing args.requesterThreadsCount args.resolverThreadCount where
  state := start args
  results := .opened

/-- The bytes that there are to print. -/
def Args.resultsLength (args : Args (List UInt8)) : Nat :=
  (args.lines.map fun name => (resultLine (args.env.answer name)).length).sum

/-! ### What is printed -/

variable {env : Env (List UInt8)} {s s' : State (List UInt8) m n} {size : Nat}

/-- The results grow by what is printed. -/
theorem results_step {a : Action m n} (h : step env s a = some s') :
    s'.results = s.results ++ ((printed env s a).map Prod.snd).toList := by
  cases (step_cases h).2 with
  | requester i woken _ hmove => simp [hmove.results, printed]
  | resolver j woken _ hmove =>
      cases hmove with
      | take hpc | takeWoken hpc =>
          have hnone : (s.resolver j).pc.inHand = 0 := by rw [hpc]; rfl
          have hresults :=
            (pop_resolves { s with bufferLock := some (.resolver j) } hnone).1
          simpa [printed, hpc] using hresults
      | signal s₁ hpc hsignal =>
          obtain ⟨requester, rfl⟩ := hsignal.frame
          simp [printed, hpc, State.setResolver]
      | leave hpc | findEmpty hpc | exit hpc | wait hpc | unlockBuffer _ hpc | resolve _ hpc
      | unlockResults hpc => simp [printed, hpc, State.setResolver]
  | spuriousRequester i input hwaiting => simp [printed, State.setRequester]
  | spuriousResolver j hwaiting => simp [printed, State.setResolver]

/-- A step that prints does not end the run. -/
theorem fault_of_printed {a : Action m n} (h : step env s a = some s')
    (hprinted : printed env s a ≠ none) : s'.fault = none := by
  obtain ⟨hfault, hmove⟩ := step_cases h
  cases hmove with
  | resolver j woken _ hmove =>
      cases hmove with
      | resolve domainName hpc => exact hfault
      | leave hpc | findEmpty hpc | take hpc | takeWoken hpc | exit hpc | signal _ hpc | wait hpc
      | unlockBuffer _ hpc | unlockResults hpc => simp [printed, hpc] at hprinted
  | requester | spuriousRequester | spuriousResolver => simp [printed] at hprinted

section Runs

variable {args : Args (List UInt8)}

/-- Every result answers a line of a file, which is answered no more often than it occurs. -/
theorem results_le {s : State (List UInt8) args.requesterThreadsCount args.resolverThreadCount}
    (h : Reachable args s) :
    (s.results : Multiset (List UInt8 × Option String)) ≤ args.lines.map args.env.answer := by
  induction h with
  | refl => exact Multiset.zero_le _
  | @tail s s' a hreach _ hstep ih =>
      have hnext : Reachable args s' := .tail hreach trivial hstep
      have hresults := results_step hstep
      cases hprinted : printed args.env s a with
      | none =>
          rw [hprinted, Option.map_none, Option.toList_none, List.append_nil] at hresults
          rw [hresults]
          exact ih
      | some result =>
          have hfault := fault_of_printed hstep (by rw [hprinted]; exact Option.some_ne_none _)
          calc
            (s'.results : Multiset (List UInt8 × Option String)) ≤
                s'.popped.map args.env.answer := by
              rw [← resolved hnext]
              exact Multiset.le_add_right _ _
            _ ≤ args.lines.map args.env.answer := Multiset.map_le_map (popped_le hnext hfault)

/-- Results that are part of what there is take part of the room. -/
theorem resultsText_length_le {results : List (List UInt8 × Option String)}
    (h : (results : Multiset (List UInt8 × Option String)) ≤ args.lines.map args.env.answer) :
    (resultsText results).length ≤ args.resultsLength := by
  obtain ⟨others, hall⟩ := Multiset.le_iff_exists_add.mp h
  have hsum : args.resultsLength =
      (((args.lines.map args.env.answer).map fun result => (resultLine result).length)).sum := by
    rw [Args.resultsLength, Multiset.map_map]
    rfl
  rw [hsum, hall, Multiset.map_add, Multiset.sum_add, Multiset.map_coe, Multiset.sum_coe,
    resultsText, List.length_flatMap]
  exact Nat.le_add_right _ _

section

variable {p : Printing args.requesterThreadsCount args.resolverThreadCount}
  {ok : Printing args.requesterThreadsCount args.resolverThreadCount →
    Output args.requesterThreadsCount args.resolverThreadCount → Prop}
  (h : Reach (printStep args.env size) ok (printStart args) p)

include h

/-- The lookup runs as it does without the streams. -/
theorem printing_state : Reachable args p.state := by
  induction h with
  | refl => exact .refl
  | @tail p p' e hreach _ hstep ih =>
      cases e with
      | act a sent =>
          obtain ⟨s', hs', rfl⟩ := Option.map_eq_some_iff.mp hstep
          exact .tail ih trivial hs'
      | flush j =>
          obtain rfl := Option.some.inj hstep
          exact ih

/-- An invariant of the results and the streams, kept by every call of `fprintf` and every flush. -/
theorem printing_invariant
    (inv : List (List UInt8 × Option String) →
      Appended (Fin args.resolverThreadCount) UInt8 → Prop)
    (hstart : inv [] .opened)
    (hprint : ∀ p a sent j result, ok p (.act a sent) →
      printed args.env p.state a = some (j, result) → inv p.state.results p.results →
        inv (p.state.results ++ [result]) (p.results.print size j (resultLine result) sent))
    (hflush : ∀ results streams j, inv results streams → inv results (streams.flush j)) :
    inv p.state.results p.results := by
  induction h with
  | refl => exact hstart
  | @tail p p' e _ hok hstep ih =>
      cases e with
      | act a sent =>
          obtain ⟨s', hs', rfl⟩ := Option.map_eq_some_iff.mp hstep
          show inv s'.results _
          rw [results_step hs']
          cases hprinted : printed args.env p.state a with
          | none =>
              simp only [Option.map_none, Option.toList_none, List.append_nil]
              exact ih
          | some entry => exact hprint p a sent entry.1 entry.2 hok hprinted ih
      | flush j =>
          obtain rfl := Option.some.inj hstep
          exact hflush _ _ j ih

/-! ### What reaches the file -/

/-- The file and the streams together hold what has been printed. -/
theorem printing_all : p.results.all = (resultsText p.state.results : Multiset UInt8) := by
  refine printing_invariant h (fun results streams => streams.all = ↑(resultsText results))
    all_opened ?_ ?_
  · intro p a sent j result _ _ hall
    rw [all_print, hall, Multiset.coe_add, resultsText, resultsText, List.flatMap_append,
      List.flatMap_singleton]
  · intro results streams j hall
    rw [all_flush, hall]

/-- A resolver that is alone prints in order. -/
theorem printing_alone (halone : args.resolverThreadCount = 1)
    (j : Fin args.resolverThreadCount) :
    p.results.file ++ p.results.pending j = resultsText p.state.results := by
  have hsame : ∀ j' : Fin args.resolverThreadCount, j' = j := fun j' => Fin.ext (by omega)
  refine printing_invariant h
    (fun results streams => streams.file ++ streams.pending j = resultsText results) rfl ?_ ?_
  · intro p a sent j' result _ _ htext
    rw [hsame j', print_alone, htext, resultsText, resultsText, List.flatMap_append,
      List.flatMap_singleton]
  · intro results streams j' htext
    rw [hsame j', flush_alone, htext]

end

variable {p : Printing args.requesterThreadsCount args.resolverThreadCount}

/-- Streams that do not overflow give up whole lines only. -/
theorem printing_whole
    (h : Reach (printStep args.env size) (RoomLeft args.env size) (printStart args) p) :
    ∃ done rest, Whole resultLine p.results done rest ∧
      (done : Multiset (List UInt8 × Option String)) + ∑ j, ↑(rest j) = ↑p.state.results := by
  refine printing_invariant h (fun results streams => ∃ done rest,
    Whole resultLine streams done rest ∧
      (done : Multiset (List UInt8 × Option String)) + ∑ j, ↑(rest j) = ↑results) ?_ ?_ ?_
  · exact ⟨[], fun _ => [], whole_opened resultLine, by simp⟩
  · rintro p a sent j result hroom hprinted ⟨done, rest, hwhole, hparts⟩
    have hfits := hroom j result hprinted
    rw [hwhole.pending] at hfits
    refine ⟨done, _, hwhole.print (by simpa using hfits), ?_⟩
    have hmove := sum_move (f := fun j => (rest j : Multiset (List UInt8 × Option String)))
      (g := fun j' => ↑(Function.update rest j (rest j ++ [result]) j')) j
        fun j' hne => by rw [Function.update_of_ne hne]
    rw [Function.update_self, ← Multiset.coe_add] at hmove
    apply add_right_cancel (b := (rest j : Multiset (List UInt8 × Option String)))
    rw [add_assoc, hmove, ← Multiset.coe_add, ← hparts]
    abel
  · rintro results streams j ⟨done, rest, hwhole, hparts⟩
    refine ⟨_, _, hwhole.flush j, ?_⟩
    have hmove := sum_move (f := fun j => (rest j : Multiset (List UInt8 × Option String)))
      (g := fun j' => ↑(Function.update rest j [] j')) j
        fun j' hne => by rw [Function.update_of_ne hne]
    rw [Function.update_self, Multiset.coe_nil, add_zero] at hmove
    rw [← Multiset.coe_add, add_assoc, add_comm (Multiset.ofList (rest j)), hmove, hparts]

/-- If all there is to print fits into one buffer, no stream overflows. -/
theorem printing_room (hfits : args.resultsLength < size)
    (h : Reach (printStep args.env size) (fun _ _ => True) (printStart args) p) :
    Reach (printStep args.env size) (RoomLeft args.env size) (printStart args) p := by
  induction h with
  | refl => exact .refl
  | @tail p p' e hreach _ hstep ih =>
      refine .tail ih ?_ hstep
      cases e with
      | flush j => trivial
      | act a sent =>
          intro j result hprinted
          obtain ⟨s', hs', -⟩ := Option.map_eq_some_iff.mp hstep
          obtain ⟨done, rest, hwhole, hparts⟩ := printing_whole ih
          have hresults := results_step hs'
          rw [hprinted, Option.map_some, Option.toList_some] at hresults
          have hmine : ((rest j ++ [result] : List _) : Multiset (List UInt8 × Option String)) ≤
              args.lines.map args.env.answer := by
            calc
              ((rest j ++ [result] : List _) : Multiset (List UInt8 × Option String)) =
                  ↑(rest j) + ↑[result] := (Multiset.coe_add _ _).symm
              _ ≤ ∑ j, ↑(rest j) + ↑[result] := add_le_add_left
                (Finset.single_le_sum (fun _ _ => Multiset.zero_le _) (Finset.mem_univ j)) _
              _ ≤ ↑done + ∑ j, ↑(rest j) + ↑[result] :=
                add_le_add_left (Multiset.le_add_left _ _) _
              _ = ↑s'.results := by rw [hparts, hresults, Multiset.coe_add]
              _ ≤ args.lines.map args.env.answer :=
                results_le (.tail (printing_state hreach) trivial hs')
          have hlength := (resultsText_length_le hmine).trans_lt hfits
          rw [hwhole.pending]
          simpa [resultsText] using hlength

end Runs

/-- **What reaches `results.txt`**, if it is a file of its own. In every run, with streams that are
flushed at any moments and give up any part of what they hold when they overflow: no byte that was
printed is lost or doubled on the way to the file. A single resolver's file is what it has printed,
less what its stream still holds. Any number of resolvers write whole lines, in some order, as long
as no stream overflows, and when the streams are empty these are all the lines printed; none does if
all there is to print fits into the buffer of one stream. -/
theorem results_reach (args : Args (List UInt8)) (size : Nat)
    (p : Printing args.requesterThreadsCount args.resolverThreadCount)
    (h : Reach (printStep args.env size) (fun _ _ => True) (printStart args) p) :
    (p.results.file : Multiset UInt8) + ∑ j, ↑(p.results.pending j) =
        ↑(resultsText p.state.results) ∧
      (args.resolverThreadCount = 1 → ∀ j,
        p.results.file ++ p.results.pending j = resultsText p.state.results) ∧
      (Reach (printStep args.env size) (RoomLeft args.env size) (printStart args) p →
        ∃ done, p.results.file = resultsText done ∧ done.Subperm p.state.results ∧
          ((∀ j, p.results.pending j = []) → done.Perm p.state.results)) ∧
      (args.resultsLength < size →
        Reach (printStep args.env size) (RoomLeft args.env size) (printStart args) p) := by
  refine ⟨printing_all h, printing_alone h, fun hroom => ?_, fun hfits => printing_room hfits h⟩
  obtain ⟨done, rest, hwhole, hparts⟩ := printing_whole hroom
  refine ⟨done, hwhole.file, ?_, fun hempty => ?_⟩
  · rw [← Multiset.coe_le, ← hparts]
    exact Multiset.le_add_right _ _
  · have hrest : ∀ j, rest j = [] := by
      intro j
      have hnone := hwhole.pending j
      rw [hempty j, eq_comm, List.flatMap_eq_nil_iff] at hnone
      refine List.eq_nil_iff_forall_not_mem.mpr fun result hmem => ?_
      have hline := hnone result hmem
      rw [resultLine_eq] at hline
      simp at hline
    simp only [hrest, Multiset.coe_nil, Finset.sum_const_zero, add_zero] at hparts
    exact Multiset.coe_eq_coe.mp hparts

theorem results_reach_oneEach : ∃ p,
    exec (printStep oneEachBytes.env 4096) (printStart oneEachBytes)
      (oneAfterOther.map (Output.act · 0) ++ [.flush 0]) = some p ∧
    p.results.file = ascii "a.com,127.0.0.1\n" ∧
    p.results.file = resultsText p.state.results := by
  have hrun : (exec (printStep oneEachBytes.env 4096) (printStart oneEachBytes)
      (oneAfterOther.map (Output.act · 0) ++ [.flush 0])).map
        (fun p => (p.results.file, p.results.pending (0 : Fin 1))) =
          some (ascii "a.com,127.0.0.1\n", []) := by decide
  obtain ⟨p, hexec, hstreams⟩ := Option.map_eq_some_iff.mp hrun
  obtain ⟨hfile, hpending⟩ := Prod.mk.inj hstreams
  have htext := (results_reach oneEachBytes 4096 p (reachable_of_exec hexec)).2.1 rfl
    (0 : Fin 1)
  rw [hpending, List.append_nil] at htext
  exact ⟨p, hexec, hfile, htext⟩

end OperatingSystems.Lookup
