import OperatingSystems.LookupLines
import OperatingSystems.LookupUnderflow
import OperatingSystems.LookupWakeups

/-!
What a completed run has done. If the last broadcast is seen and no resolver resumes on an empty
buffer, no fault occurs on the way, and a run that cannot go on is over: all threads have exited,
and the results hold one answer for every line of every file. The faults are those of the threads;
what `main` does after it has joined them is left out.
-/

namespace OperatingSystems.Lookup

open Runs Threads

variable {Line : Type} {m n : Nat}

/-! ### Results -/

/-- The name that a resolver has taken and not yet written to the results. -/
def ResolverPc.inHand : ResolverPc Line → Multiset Line
  | .unlockBuffer domainName | .lockResults domainName => {domainName}
  | _ => 0

/-- The entry of the results for a name. -/
def Env.answer (env : Env Line) (domainName : Line) : Line × Option String :=
  (domainName, env.dnslookup domainName)

/-- The names that have been taken are answered in the results, or in a resolver's hand. -/
def State.Resolved (env : Env Line) (s : State Line m n) : Prop :=
  (s.results : Multiset (Line × Option String)) +
    (∑ j, (s.resolver j).pc.inHand).map env.answer = s.popped.map env.answer

theorem Resolver.Woken.inHand_eq {q q' : Resolver Line} (h : q.Woken q') :
    q'.pc.inHand = q.pc.inHand := by
  rcases h with rfl | ⟨hpc, rfl⟩
  · rfl
  · rw [hpc]
    rfl

theorem RequesterMove.results {env : Env Line} {s s' : State Line m n} {i : Fin m}
    (h : RequesterMove env s i s') : s'.results = s.results := by
  cases h with
  | signalFull _ _ _ hsignal | signalDone _ _ hsignal =>
      obtain ⟨resolver, rfl⟩ := hsignal.frame
      rfl
  | _ => rfl

/-- Threads that are woken resolve nothing. -/
theorem State.Resolved.of_woken {env : Env Line} {s s' : State Line m n} (h : s.Resolved env)
    (hresults : s'.results = s.results)
    (hresolvers : ∀ j, (s.resolver j).Woken (s'.resolver j)) : s'.Resolved env := by
  have hpopped : s'.popped = s.popped :=
    Finset.sum_congr rfl fun j _ => by rw [(hresolvers j).popped_eq]
  have hinHand : ∑ j, (s'.resolver j).pc.inHand = ∑ j, (s.resolver j).pc.inHand :=
    Finset.sum_congr rfl fun j _ => (hresolvers j).inHand_eq
  rw [State.Resolved, hresults, hpopped, hinHand]
  exact h

/-- A name that is taken is in the resolver's hand. -/
theorem pop_resolves (s : State Line m n) {j : Fin n}
    (hpc : (s.resolver j).pc.inHand = 0) :
    (s.pop j (s.resolver j)).results = s.results ∧
      ((s.pop j (s.resolver j)).resolver j).pc.inHand + ((s.resolver j).popped : Multiset Line) =
        (((s.pop j (s.resolver j)).resolver j).popped : Multiset Line) := by
  rcases pop_cases s j (s.resolver j) with ⟨-, hpop⟩ | ⟨-, -, hpop⟩ | ⟨name, -, -, hpop⟩
  · rw [hpop]
    exact ⟨rfl, by rw [hpc, zero_add]⟩
  · rw [hpop]
    exact ⟨rfl, by rw [hpc, zero_add]⟩
  · rw [hpop]
    refine ⟨rfl, ?_⟩
    rw [setResolver_self, ← Multiset.coe_add, Multiset.coe_singleton]
    exact add_comm _ _

/-- A resolver's move takes a name into its hand, writes the name in its hand, or does neither. -/
theorem ResolverMove.resolves {env : Env Line} {s s' : State Line m n} {j : Fin n}
    (h : ResolverMove env s j s') :
    (s'.results : Multiset (Line × Option String)) + (s'.resolver j).pc.inHand.map env.answer +
        ((s.resolver j).popped : Multiset Line).map env.answer =
      (s.results : Multiset (Line × Option String)) + (s.resolver j).pc.inHand.map env.answer +
        ((s'.resolver j).popped : Multiset Line).map env.answer := by
  cases h with
  | take hpc | takeWoken hpc =>
      have hnone : (s.resolver j).pc.inHand = 0 := by rw [hpc]; rfl
      obtain ⟨hresults, htaken⟩ :=
        pop_resolves { s with bufferLock := some (.resolver j) } hnone
      rw [hresults, hnone, ← htaken, Multiset.map_add, Multiset.map_zero, add_zero, add_assoc]
  | resolve domainName hpc =>
      rw [setResolver_self, hpc]
      change ((s.results ++ [env.answer domainName] : List _) : Multiset _) + 0 + _ =
        (s.results : Multiset _) + {env.answer domainName} + _
      rw [← Multiset.coe_add, Multiset.coe_singleton, add_zero]
  | signal s₁ hpc hsignal =>
      obtain ⟨requester, rfl⟩ := hsignal.frame
      rw [setResolver_self, hpc]
      rfl
  | leave hpc | findEmpty hpc | exit hpc | wait hpc | unlockBuffer _ hpc | unlockResults hpc =>
      rw [setResolver_self, hpc]
      rfl

theorem step_resolved {env : Env Line} {s s' : State Line m n} {a : Action m n}
    (h : step env s a = some s') (hresolved : s.Resolved env) : s'.Resolved env := by
  cases (step_cases h).2 with
  | requester i woken _ hmove => exact hresolved.of_woken hmove.results hmove.resolvers
  | resolver j woken _ hmove =>
      have hinHand := sum_move (f := fun j => (s.resolver j).pc.inHand)
        (g := fun j => (s'.resolver j).pc.inHand) j fun j' hne => by rw [hmove.others hne]
      have hpopped := sum_move (f := fun j => ((s.resolver j).popped : Multiset Line))
        (g := fun j => ((s'.resolver j).popped : Multiset Line)) j
        fun j' hne => by rw [hmove.others hne]
      have hinHand := congrArg (Multiset.map env.answer) hinHand
      have hpopped := congrArg (Multiset.map env.answer) hpopped
      have hresolves := hmove.resolves
      simp only [Multiset.map_add] at hinHand hpopped
      unfold State.Resolved State.popped at hresolved ⊢
      apply add_right_cancel (b := (s.resolver j).pc.inHand.map env.answer +
        ((s.resolver j).popped : Multiset Line).map env.answer)
      calc
        _ = (s'.results : Multiset (Line × Option String)) +
            ((∑ j, (s'.resolver j).pc.inHand).map env.answer +
              (s.resolver j).pc.inHand.map env.answer) +
            ((s.resolver j).popped : Multiset Line).map env.answer := by abel
        _ = (s'.results : Multiset (Line × Option String)) +
              (s'.resolver j).pc.inHand.map env.answer +
              ((s.resolver j).popped : Multiset Line).map env.answer +
            (∑ j, (s.resolver j).pc.inHand).map env.answer := by
          rw [hinHand]
          abel
        _ = ((s.results : Multiset (Line × Option String)) +
              (∑ j, (s.resolver j).pc.inHand).map env.answer) +
            ((s'.resolver j).popped : Multiset Line).map env.answer +
            (s.resolver j).pc.inHand.map env.answer := by
          rw [hresolves]
          abel
        _ = _ := by
          rw [hresolved, ← hpopped]
          abel
  | spuriousRequester i input hwaiting =>
      exact hresolved.of_woken rfl fun _ => Or.inl rfl
  | spuriousResolver j hwaiting =>
      exact hresolved.of_woken rfl (SignalsIsEmpty.woken j hwaiting).woken_resolver

/-! ### Runs without a fault -/

variable {args : Args Line} {s : State Line args.requesterThreadsCount args.resolverThreadCount}

theorem resolved (h : Reachable args s) : s.Resolved args.env := by
  refine h.invariant (State.Resolved args.env) ?_ fun _ _ _ hresolved _ hstep =>
    step_resolved hstep hresolved
  simp [State.Resolved, State.popped, start, ResolverPc.inHand]

/-- The conditions on the order of steps under which no fault occurs. -/
def WellTimed (s : State Line m n) (a : Action m n) : Prop :=
  LastBroadcastSeen s a ∧ ResumesFilled s a

instance (pc : ResolverPc Line) : Decidable (pc = .relockBuffer) :=
  decidable_of_iff ((match pc with | .relockBuffer => true | _ => false) = true)
    (by cases pc <;> simp)

instance (s : State Line m n) (a : Action m n) : Decidable (WellTimed s a) :=
  match a with
  | .resolver _ _ => inferInstanceAs (Decidable (_ ∧ (_ → _)))
  | .requester _ _ | .spuriousRequester _ | .spuriousResolver _ =>
      inferInstanceAs (Decidable (_ ∧ True))

/-- A pop goes wrong only below the names that were stored. -/
theorem pop_fault {env : Env Line} {total : Multiset Line} {s : State Line m n} (j : Fin n)
    (hconserved : s.Conserved env total) (hfilled : s.currentPosition ≠ 0) :
    (s.pop j (s.resolver j)).fault = s.fault := by
  have hposition := hconserved.position_nonneg
  rcases pop_cases s j (s.resolver j) with ⟨hempty, -⟩ | ⟨-, hunset, -⟩ | ⟨name, -, -, hpop⟩
  · omega
  · have hset := hconserved.slots (s.currentPosition - 1) (by omega) (by omega)
    rw [hunset] at hset
    cases hset
  · rw [hpop, setResolver_fault]

theorem ResolverMove.fault {env : Env Line} {total : Multiset Line} {s s' : State Line m n}
    {j : Fin n} (h : ResolverMove env s j s') (hconserved : s.Conserved env total)
    (woken : Option (Fin m)) (hfilled : ResumesFilled s (.resolver j woken)) :
    s'.fault = s.fault := by
  have hlocked :
      ({ s with bufferLock := some (.resolver j) } : State Line m n).Conserved env total :=
    ⟨hconserved.position_nonneg, hconserved.slots, hconserved.stored, hconserved.lines,
      hconserved.left_empty⟩
  cases h with
  | take _ _ hitems => exact pop_fault j hlocked hitems
  | takeWoken hpc => exact pop_fault j hlocked (hfilled hpc)
  | signal s₁ _ hsignal =>
      obtain ⟨requester, rfl⟩ := hsignal.frame
      rfl
  | _ => rfl

theorem RequesterMove.fault {env : Env Line} {s s' : State Line m n} {i : Fin m}
    (h : RequesterMove env s i s') : s'.fault = s.fault ∨ s'.fault = some .badStream := by
  cases h with
  | badStream => exact Or.inr rfl
  | signalFull _ _ _ hsignal | signalDone _ _ hsignal =>
      obtain ⟨resolver, rfl⟩ := hsignal.frame
      exact Or.inl rfl
  | _ => exact Or.inl rfl

/-- No fault occurs in a run that is well timed. -/
theorem fault_none (hopenable : args.Openable)
    (h : Reach (step args.env) WellTimed (start args) s) : s.fault = none := by
  have hreachable : ∀ {s}, Reach (step args.env) WellTimed (start args) s → Reachable args s :=
    fun h => h.mono fun _ _ _ => trivial
  cases h with
  | refl => rfl
  | tail hreach hok hstep =>
      have hbefore := hreachable hreach
      obtain ⟨hfault, hmove⟩ := step_cases hstep
      have hstream := (streaming hopenable (.tail hbefore trivial hstep)).2
      have hconserved := conserved hbefore (by rw [hfault]; exact nofun)
      cases hmove with
      | requester i woken _ hmove =>
          rcases hmove.fault with hsame | hbad
          · exact hsame.trans hfault
          · exact absurd hbad hstream
      | resolver j woken _ hmove => exact (hmove.fault hconserved woken hok.2).trans hfault
      | spuriousRequester | spuriousResolver => exact hfault

/-! ### Runs that are over -/

/-- No thread can take a step. -/
def State.Rests (env : Env Line) (s : State Line m n) : Prop :=
  (∀ i woken, (step env s (.requester i woken)).isNone) ∧
    ∀ j woken, (step env s (.resolver j woken)).isNone

instance (env : Env Line) (s : State Line m n) : Decidable (s.Rests env) :=
  inferInstanceAs (Decidable (_ ∧ _))

theorem RequesterPc.hasExited_iff (pc : RequesterPc Line) : pc.hasExited = true ↔ pc = .exited := by
  cases pc <;> simp [RequesterPc.hasExited]

theorem ResolverPc.hasExited_iff (pc : ResolverPc Line) : pc.hasExited = true ↔ pc = .exited := by
  cases pc <;> simp [ResolverPc.hasExited]

/-- A run that rests is over. -/
theorem exited_of_rests (hopenable : args.Openable)
    (h : Reach (step args.env) WellTimed (start args) s) (hrests : s.Rests args.env) :
    (∀ i, (s.requester i).pc = .exited) ∧ ∀ j, (s.resolver j).pc = .exited := by
  have hfault := fault_none hopenable h
  have hawaited := awaited (h.mono fun _ _ hok => hok.1)
  have hreach : Reachable args s := h.mono fun _ _ _ => trivial
  by_contra hnot
  have hstuck : s.Stuck args.env := by
    refine ⟨hfault, ?_, hrests⟩
    by_contra hall
    simp only [not_or, not_exists, Bool.not_eq_false, RequesterPc.hasExited_iff,
      ResolverPc.hasExited_iff] at hall
    exact hnot hall
  obtain ⟨hrequesters, hresolvers⟩ := hstuck.parked (locksOwned hreach hfault)
  have hgone : ∀ i, (s.requester i).pc = .exited := by
    by_contra hleft
    obtain ⟨i, hi⟩ := not_forall.mp hleft
    obtain ⟨input, hpc⟩ := (hrequesters i).resolve_left hi
    -- Somebody will let the requester that waits go on, and this one could take a step.
    rcases hawaited.attended ⟨i, by rw [hpc]; rfl⟩ with ⟨j, hawake⟩ | ⟨i', hsignals⟩
    · rcases hresolvers j with hj | hj <;> simp [hj, ResolverPc.awake] at hawake
    · rcases hrequesters i' with hi' | ⟨_, hi'⟩ <;>
        simp [hi', RequesterPc.willSignal, RequesterPc.suspended, RequesterPc.broadcasted]
          at hsignals
  refine hnot ⟨hgone, fun j => (hresolvers j).resolve_right fun hwaits => ?_⟩
  have hdismissed := hawaited.dismissed (fun i => by rw [hgone i]; rfl) j
  rw [hwaits] at hdismissed
  cases hdismissed

/-- When all threads have exited, the names of all files have been taken. -/
theorem popped_of_exited (h : Reachable args s) (hfault : s.fault = none)
    (hrequesters : ∀ i, (s.requester i).pc = .exited)
    (hresolvers : ∀ j, (s.resolver j).pc = .exited) : s.popped = args.lines := by
  have horderly := orderly h
  have hconserved := conserved h (by rw [hfault]; exact nofun)
  have hcounted : ∀ i, (s.requester i).pc.counted = true := fun i => by
    rw [hrequesters i]
    rfl
  have hempty := hconserved.left_empty ⟨0, args.resolvers_pos⟩ (by rw [hresolvers]; rfl)
  have hheld : s.held = 0 := by
    rw [State.held, hempty]
    rfl
  have hunclaimed : unclaimed args.env s.files = 0 := by
    have hserviced := horderly.serviced ⟨0, args.requesters_pos⟩
      (RequesterPc.finishing_of_counted (hcounted _))
    refine List.sum_eq_zero fun lines hmem => ?_
    obtain ⟨file, hfile, rfl⟩ := List.mem_map.mp hmem
    rw [if_pos (hserviced file hfile)]
  have hlines : ∑ i, (s.requester i).lines = s.enqueued := by
    refine Finset.sum_congr rfl fun i _ => ?_
    obtain ⟨hclosed, hpending⟩ := Requester.empty_of_counted (horderly.placed i) (hcounted i)
    simp [Requester.lines, hclosed, hpending]
  calc
    s.popped = s.enqueued := by rw [hconserved.stored, hheld, zero_add]
    _ = args.lines := by rw [← hconserved.lines, hunclaimed, zero_add, hlines]

/-- When all threads have exited, the names of all files have been answered. -/
theorem results_of_exited (h : Reachable args s) (hfault : s.fault = none)
    (hrequesters : ∀ i, (s.requester i).pc = .exited)
    (hresolvers : ∀ j, (s.resolver j).pc = .exited) :
    (s.results : Multiset (Line × Option String)) = args.lines.map args.env.answer := by
  have hresolved := resolved h
  have hinHand : ∑ j, (s.resolver j).pc.inHand = 0 :=
    Finset.sum_eq_zero fun j _ => by
      rw [hresolvers j]
      rfl
  rwa [State.Resolved, hinHand, Multiset.map_zero, add_zero,
    popped_of_exited h hfault hrequesters hresolvers] at hresolved

/-- **A run that cannot go on has done its work.** Let the files be given by their bytes, let every
valid file be openable for update, and let its lines fit. In a run in which the last broadcast is
seen and no resolver resumes on an empty buffer, no name is taken from the empty buffer or from a
slot that was never stored, no stream is read that is not open, and no line is accessed outside of
its buffer. When no thread can take a step any more, all have exited, every requester has reported
once, the reports add up to the number of files, and the results are the answers for the names in
the lines of all files, each as often as it occurs. -/
theorem lookup_completes (args : Args (List UInt8)) (content : FileName → List UInt8)
    (hopenable : args.Openable) (hholds : args.env.Holds content)
    (hfits : ∀ filename ∈ args.validFiles, ∀ line ∈ getlines (content filename), Fits line)
    (s : State (List UInt8) args.requesterThreadsCount args.resolverThreadCount)
    (h : Reach (step args.env) WellTimed (start args) s) :
    s.fault = none ∧
      (∀ filename ∈ args.validFiles,
        readLoop (content filename) = .ok ((getlines (content filename)).map nameOf)) ∧
      (s.Rests args.env →
        (∀ i, (s.requester i).pc = .exited) ∧ (∀ j, (s.resolver j).pc = .exited) ∧
          (∀ i, (s.serviceLog.map Prod.fst).count i = 1) ∧
          (s.serviceLog.map Prod.snd).sum = args.validFiles.length ∧
          s.results.Perm (args.validFiles.flatMap fun filename =>
            (getlines (content filename)).map fun line =>
              (nameOf line, args.env.dnslookup (nameOf line)))) := by
  have hfault := fault_none hopenable h
  have hreach : Reachable args s := h.mono fun _ _ _ => trivial
  refine ⟨hfault, fun filename hmem => readLoop_of_fits (hfits filename hmem), fun hrests => ?_⟩
  obtain ⟨hrequesters, hresolvers⟩ := exited_of_rests hopenable h hrests
  have haccounted := accounted hreach
  have hcounted : ∀ i, (s.requester i).pc.counted = true := fun i => by
    rw [hrequesters i]
    rfl
  have hserviced := (orderly hreach).serviced ⟨0, args.requesters_pos⟩
    (RequesterPc.finishing_of_counted (hcounted _))
  refine ⟨hrequesters, hresolvers, fun i => ?_,
    log_sum_of_counted haccounted hserviced hcounted, ?_⟩
  · rw [haccounted.logged, hcounted i]
    rfl
  · rw [← Multiset.coe_eq_coe, results_of_exited hreach hfault hrequesters hresolvers,
      lines_of_contents hopenable hholds hfits, Multiset.map_coe, List.map_flatMap]
    simp only [List.map_map]
    rfl

/-- `oneEach` with its file given by bytes. -/
def oneEachBytes : Args (List UInt8) :=
  { oneEach with
    env :=
      { file := fun _ =>
          { readable := true, writable := true, regular := true, lines := [ascii "a.com"] }
        dnslookup := fun _ => some "127.0.0.1" } }

theorem isName_aCom : ∀ name ∈ [ascii "a.com"], IsName name := fun name hmem =>
  List.mem_singleton.mp hmem ▸ ⟨by decide, by decide, by decide⟩

theorem aCom_line :
    ascii "a.com\n" = ([ascii "a.com"].flatMap fun name => name ++ [newline]) ++ [] := by
  decide

theorem oneEachBytes_reads : oneEachBytes.env.Reads fun _ => ascii "a.com\n" := fun _ => by
  rw [aCom_line]
  exact readLoop_of_names isName_aCom ⟨by decide, by decide, by decide⟩

theorem oneEachBytes_fits : ∀ line ∈ getlines (ascii "a.com\n"), Fits line := by
  have hlines : getlines (ascii "a.com\n") = [ascii "a.com" ++ [newline]] := by
    rw [aCom_line]
    exact Records.records_joined (fun name hmem => (isName_aCom name hmem).no_newline)
      List.not_mem_nil
  intro line hline
  rw [hlines, List.mem_singleton] at hline
  rw [hline]
  exact (isName_aCom _ List.mem_cons_self).line.1

theorem oneAfterOther_completes :
    ∃ s, exec (step oneEachBytes.env) (start oneEachBytes) oneAfterOther = some s ∧
      s.fault = none ∧ s.Rests oneEachBytes.env ∧
      s.results.Perm (oneEachBytes.validFiles.flatMap fun _ =>
        (getlines (ascii "a.com\n")).map fun line => (nameOf line, some "127.0.0.1")) := by
  have hrun : (exec (guarded (step oneEachBytes.env) WellTimed) (start oneEachBytes)
      oneAfterOther).map (fun s => decide (s.Rests oneEachBytes.env)) = some true := by decide
  obtain ⟨s, hexec, hrests⟩ := Option.map_eq_some_iff.mp hrun
  have hrests := of_decide_eq_true hrests
  obtain ⟨hfault, -, hdone⟩ := lookup_completes oneEachBytes (fun _ => ascii "a.com\n")
    (by unfold Args.Openable; decide) oneEachBytes_reads.holds (fun _ _ => oneEachBytes_fits) s
    (.of_guarded_exec .refl hexec)
  exact ⟨s, exec_of_guarded hexec, hfault, hrests, (hdone hrests).2.2.2.2⟩

end OperatingSystems.Lookup
