import OperatingSystems.SimulatorTransfers

/-!
The pager `api-test`, which exercises `pagein` and `pageout` on page 0 of processor 0 and ends the
program after six changes. What it prints depends on nothing: not on the random numbers, the number
of processors or the programs. The page is taken out in the tick in which it arrives, so that no
job ever computes.
-/

namespace OperatingSystems.Simulator

open Loop Runs Frames CallTree

/-! ### The pager -/

/-- `MAXITERATIONS`. -/
def maxIterations : Nat := 5

/-- The static variables of `pageit`, what has been printed, and whether `exit` has been called. -/
@[ext] structure ApiTest where
  tick : Nat
  outTestRun : Bool
  inTestRun : Bool
  iterations : Nat
  stdout : List String
  exited : Bool

/-- The conversion `%4d`. -/
def decimal4 (n : Nat) : String :=
  let digits := Nat.repr n
  String.ofList (List.replicate (4 - digits.length) ' ') ++ digits

/-- The conversion `%d` of a truth value. -/
def truthDigit (b : Bool) : String := if b then "1" else "0"

/-- The lines that begin with `tick`. -/
def swappedLine (tick : Nat) (swapped : Bool) : String :=
  decimal4 tick ++ " - 0:0 is swapped " ++ (if swapped then "in" else "out") ++ "\n"

def entryLine (tick : Nat) (entry : Bool) : String :=
  decimal4 tick ++ " - q[0].pages[0] = " ++ truthDigit entry ++ "\n"

def pageinLine (tick : Nat) (pageinret : Bool) : String :=
  decimal4 tick ++ " - pagein(0, 0) returns " ++ truthDigit pageinret ++ "\n"

def pageoutLine (tick : Nat) (pageoutret : Bool) : String :=
  decimal4 tick ++ " - pageout(0, 0) returns " ++ truthDigit pageoutret ++ "\n"

def inProgressLine (tick : Nat) : String := decimal4 tick ++ " - pageout in progress...\n"

def exitingLine : String := "API Test Exiting\n"

def ApiTest.printf (st : ApiTest) (lines : List String) : ApiTest :=
  { st with stdout := st.stdout ++ lines }

/-- What the test of a page that is swapped in leaves, with the two answers. -/
def ApiTest.testedIn (st : ApiTest) (entry pageinret pageoutret : Bool) : ApiTest :=
  let st := st.printf [swappedLine st.tick true, entryLine st.tick entry,
    pageinLine st.tick pageinret, entryLine st.tick entry, pageoutLine st.tick pageoutret,
    entryLine st.tick entry]
  if pageoutret then
    { st with inTestRun := true, outTestRun := false, iterations := st.iterations + 1 }
  else st

/-- What the test of a page that is swapped out leaves, with the two answers. -/
def ApiTest.testedOut (st : ApiTest) (entry pageoutret pageinret : Bool) : ApiTest :=
  let before := [swappedLine st.tick false, entryLine st.tick entry,
    pageoutLine st.tick pageoutret, entryLine st.tick entry, pageinLine st.tick pageinret]
  if pageinret then
    { st.printf (before ++ [entryLine st.tick entry]) with
      outTestRun := true, inTestRun := false, iterations := st.iterations + 1 }
  else st.printf (before ++ [inProgressLine st.tick, entryLine st.tick entry])

def apiTestIn (q : Snapshot) (st : ApiTest) : CallTree PageCall Bool ApiTest :=
  if st.inTestRun then pure st
  else do
    let pageinret ← ask (.pagein 0 0)
    let pageoutret ← ask (.pageout 0 0)
    pure (st.testedIn ((q 0).pages 0) pageinret pageoutret)

def apiTestOut (q : Snapshot) (st : ApiTest) : CallTree PageCall Bool ApiTest :=
  if st.outTestRun then pure st
  else do
    let pageoutret ← ask (.pageout 0 0)
    let pageinret ← ask (.pagein 0 0)
    pure (st.testedOut ((q 0).pages 0) pageoutret pageinret)

/-- The end of `pageit`. -/
def ApiTest.finish (st : ApiTest) : ApiTest :=
  if st.iterations > maxIterations then { st.printf [exitingLine] with exited := true }
  else { st with tick := st.tick + 1 }

/-- `pageit` of `api-test`. After `exit` nothing is called any more. -/
def apiTest : Pager where
  State := ApiTest
  init := ⟨0, false, false, 0, [], false⟩
  pageit q st :=
    if st.exited then pure st
    else do
      let st ← (if (q 0).pages 0 then apiTestIn q st else apiTestOut q st)
      pure st.finish

/-! ### What it finds and prints -/

/-- The entry of the page after `n` iterations. It comes and goes in turn, in `PAGEWAIT` ticks. -/
def probeCell : Nat → Int
  | 0 => -pageWait - 1
  | n + 1 =>
      let since : Int := (n % 200 : Nat)
      if since < pageWait then pageWait - since else pageWait - 1 - since

/-- What is printed in iteration `n`. -/
def probeLines (n : Nat) : List String :=
  if n % 200 = 100 then
    [swappedLine n true, entryLine n true, pageinLine n true, entryLine n true, pageoutLine n true,
      entryLine n true]
  else if n % 200 = 0 then
    [swappedLine n false, entryLine n false, pageoutLine n true, entryLine n false,
      pageinLine n true, entryLine n false]
  else if n % 200 < 100 then []
  else
    [swappedLine n false, entryLine n false, pageoutLine n true, entryLine n false,
      pageinLine n false, inProgressLine n, entryLine n false]

/-- The static variables after `n` iterations. -/
def probeState (n : Nat) : ApiTest where
  tick := n
  outTestRun := decide (0 < n ∧ (n - 1) % 200 < 100)
  inTestRun := decide (0 < n ∧ 100 ≤ (n - 1) % 200)
  iterations := (n + 99) / 100
  stdout := (List.range n).flatMap probeLines
  exited := false

/-! ### One call -/

/-- The entry of the page when `pageit` is called in iteration `n`. -/
def probeShown (n : Nat) : Int := ageCell pageWait (probeCell n)

theorem probeShown_eq (n : Nat) :
    probeShown n =
      if n % 200 = 0 then -pageWait - 1
      else if n % 200 ≤ 100 then pageWait - (n % 200 : Nat)
      else pageWait - 1 - (n % 200 : Nat) := by
  have hwait : pageWait = 100 := rfl
  unfold probeShown ageCell
  cases n with
  | zero => simp [probeCell]
  | succ n =>
      unfold probeCell
      simp only
      split_ifs <;> omega

theorem probeCell_ne (n : Nat) : probeCell n ≠ 0 := by
  have hwait : pageWait = 100 := rfl
  cases n with
  | zero => decide
  | succ n =>
      unfold probeCell
      simp only
      split_ifs <;> omega

section Call

variable {procs : Nat} {s : State} {k : Fin queueSize} {n : Nat}

/-- The static variables before the end of the call in iteration `n`. -/
def probed (n : Nat) : ApiTest := { probeState (n + 1) with tick := n }

theorem probed_lines (n : Nat) : (probed n).stdout = (List.range (n + 1)).flatMap probeLines := rfl

theorem probed_stdout (n : Nat) : (probed n).stdout = (probeState n).stdout ++ probeLines n := by
  rw [probed_lines, List.range_succ, List.flatMap_append, List.flatMap_singleton]
  rfl

theorem testedOut_coming (hphase : n % 200 = 0) :
    (probeState n).testedOut false true true = probed n := by
  have hlines : probeLines n = [swappedLine n false, entryLine n false, pageoutLine n true,
      entryLine n false, pageinLine n true, entryLine n false] := by
    rw [probeLines, if_neg (by omega), if_pos hphase]
  apply ApiTest.ext
  · rfl
  · exact (decide_eq_true (by omega)).symm
  · exact (decide_eq_false (by omega)).symm
  · show (n + 99) / 100 + 1 = (n + 1 + 99) / 100
    omega
  · rw [probed_stdout, hlines]
    rfl
  · rfl

theorem testedOut_refused (hphase : 100 < n % 200) :
    (probeState n).testedOut false true false = probed n := by
  have hlines : probeLines n = [swappedLine n false, entryLine n false, pageoutLine n true,
      entryLine n false, pageinLine n false, inProgressLine n, entryLine n false] := by
    rw [probeLines, if_neg (by omega), if_neg (by omega), if_neg (by omega)]
  apply ApiTest.ext
  · rfl
  · exact (decide_eq_false (by omega)).trans (decide_eq_false (by omega)).symm
  · exact (decide_eq_true (by omega)).trans (decide_eq_true (by omega)).symm
  · show (n + 99) / 100 = (n + 1 + 99) / 100
    omega
  · rw [probed_stdout, hlines]
    rfl
  · rfl

theorem testedIn_going (hphase : n % 200 = 100) :
    (probeState n).testedIn true true true = probed n := by
  have hlines : probeLines n = [swappedLine n true, entryLine n true, pageinLine n true,
      entryLine n true, pageoutLine n true, entryLine n true] := by
    rw [probeLines, if_pos hphase]
  apply ApiTest.ext
  · rfl
  · exact (decide_eq_false (by omega)).symm
  · exact (decide_eq_true (by omega)).symm
  · show (n + 99) / 100 + 1 = (n + 1 + 99) / 100
    omega
  · rw [probed_stdout, hlines]
    rfl
  · rfl

theorem probeState_waits (hpos : 0 < n % 200) (hphase : n % 200 < 100) :
    probeState n = probed n := by
  have hlines : probeLines n = [] := by
    rw [probeLines, if_neg (by omega), if_neg (by omega), if_pos hphase]
  apply ApiTest.ext
  · rfl
  · exact (decide_eq_true (by omega)).trans (decide_eq_true (by omega)).symm
  · exact (decide_eq_false (by omega)).trans (decide_eq_false (by omega)).symm
  · show (n + 99) / 100 = (n + 1 + 99) / 100
    omega
  · rw [probed_stdout, hlines, List.append_nil]
  · rfl

variable (htarget : s.target procs 0 0 = some (k, 0))
  (hcell : s.pool.cell (k, 0) = probeShown n)

include htarget hcell

theorem probe_pentry : (s.pentry 0).pages 0 = decide (probeShown n = 0) := by
  obtain ⟨-, -, hslot, -, -, hlt, -⟩ := target_cases htarget
  have hslot : s.processes 0 = some k := hslot
  have hlt : 0 < (s.queue k).npages := hlt
  have hpages : (s.queue k).pages 0 = probeShown n := hcell
  simp only [State.pentry, hslot, hpages, hlt, decide_true, Bool.true_and]

/-- The page is out: it is asked for. -/
theorem probe_out (havail : s.pool.avail ≠ 0) (hphase : n % 200 = 0) :
    let r := (apiTestOut s.pentry (probeState n)).run (PageCall.answer procs) s
    r.1 = probed n ∧ r.2.pool.cell = Function.update s.pool.cell (k, 0) (probeCell (n + 1)) := by
  intro r
  have hwait : pageWait = 100 := rfl
  have hshown : probeShown n = -pageWait - 1 := by rw [probeShown_eq, if_pos hphase]
  have hthen : probeCell (n + 1) = pageWait := by
    rw [probeCell, hphase]
    rfl
  have hentry : (s.pentry 0).pages 0 = false := by
    rw [probe_pentry htarget hcell, hshown]
    rfl
  have hpageout : PageCall.answer procs (.pageout 0 0) s = (true, s) :=
    pageout_of_going htarget (show s.pool.cell (k, 0) < 0 by omega)
  obtain ⟨hcoming, hpool⟩ := answer_perform (r := .pagein 0 0) (c := (k, 0)) htarget
  have htake : take pageWait (k, 0) s.pool =
      (true, ⟨s.pool.avail - 1, Function.update s.pool.cell (k, 0) pageWait⟩) := by
    rw [take, if_neg (by omega), if_neg havail, if_neg (by omega)]
  rw [PageCall.perform, htake] at hcoming hpool
  have hfree : (probeState n).outTestRun = false := decide_eq_false (by omega)
  have hr : r = ((probeState n).testedOut false true true,
      (PageCall.answer procs (.pagein 0 0) s).2) := by
    simp only [r, apiTestOut, hfree, hentry, Bool.false_eq_true, if_false, ask_bind, run_call,
      hpageout, hcoming, pure_eq, run_ret]
  rw [hr, testedOut_coming hphase]
  refine ⟨rfl, ?_⟩
  rw [hpool, hthen]

/-- The page is on its way out: it is asked for without effect. -/
theorem probe_going (hphase : 100 < n % 200) :
    let r := (apiTestOut s.pentry (probeState n)).run (PageCall.answer procs) s
    r.1 = probed n ∧ r.2.pool.cell = Function.update s.pool.cell (k, 0) (probeCell (n + 1)) := by
  intro r
  have hwait : pageWait = 100 := rfl
  have hshown : probeShown n = pageWait - 1 - (n % 200 : Nat) := by
    rw [probeShown_eq, if_neg (by omega), if_neg (by omega)]
  have hthen : probeCell (n + 1) = probeShown n := by
    rw [hshown]
    exact if_neg (by omega)
  have hentry : (s.pentry 0).pages 0 = false := by
    rw [probe_pentry htarget hcell]
    exact decide_eq_false (by omega)
  have hgoing : s.pool.cell (k, 0) < 0 := by omega
  have hpageout : PageCall.answer procs (.pageout 0 0) s = (true, s) :=
    pageout_of_going htarget hgoing
  have hpagein : PageCall.answer procs (.pagein 0 0) s = (false, s) :=
    pagein_of_going htarget hgoing (show -pageWait ≤ s.pool.cell (k, 0) by omega)
  have hfree : (probeState n).outTestRun = false := decide_eq_false (by omega)
  have hr : r = ((probeState n).testedOut false true false, s) := by
    simp only [r, apiTestOut, hfree, hentry, Bool.false_eq_true, if_false, ask_bind, run_call,
      hpageout, hpagein, pure_eq, run_ret]
  rw [hr, testedOut_refused hphase, hthen, ← hcell, Function.update_eq_self]
  exact ⟨rfl, rfl⟩

/-- The page has just come in: it is given up. -/
theorem probe_in (hphase : n % 200 = 100) :
    let r := (apiTestIn s.pentry (probeState n)).run (PageCall.answer procs) s
    r.1 = probed n ∧ r.2.pool.cell = Function.update s.pool.cell (k, 0) (probeCell (n + 1)) := by
  intro r
  have hshown : probeShown n = 0 := by
    rw [probeShown_eq, hphase]
    rfl
  have hthen : probeCell (n + 1) = -1 := by
    rw [probeCell, hphase]
    rfl
  have hentry : (s.pentry 0).pages 0 = true := by
    rw [probe_pentry htarget hcell, hshown]
    rfl
  have hin : (s.queue k).pages 0 = 0 := hcell.trans hshown
  have hpagein : PageCall.answer procs (.pagein 0 0) s = (true, s) := by
    simp only [PageCall.answer, pagein, htarget]
    exact if_pos hin.ge
  obtain ⟨hgoing, hpool⟩ := answer_perform (r := .pageout 0 0) (c := (k, 0)) htarget
  have hdrop : drop (k, 0) s.pool =
      (true, { s.pool with cell := Function.update s.pool.cell (k, 0) (-1) }) := by
    rw [drop, hcell, hshown, if_neg (by decide), if_neg (by decide)]
  rw [PageCall.perform, hdrop] at hgoing hpool
  have hfree : (probeState n).inTestRun = false := decide_eq_false (by omega)
  have hr : r = ((probeState n).testedIn true true true,
      (PageCall.answer procs (.pageout 0 0) s).2) := by
    simp only [r, apiTestIn, hfree, hentry, Bool.false_eq_true, if_false, ask_bind, run_call,
      hpagein, hgoing, pure_eq, run_ret]
  rw [hr, testedIn_going hphase]
  refine ⟨rfl, ?_⟩
  rw [hpool, hthen]

omit htarget in
/-- The page is on its way in: nothing is called. -/
theorem probe_coming (hpos : 0 < n % 200) (hphase : n % 200 < 100) :
    let r := (apiTestOut s.pentry (probeState n)).run (PageCall.answer procs) s
    r.1 = probed n ∧ r.2.pool.cell = Function.update s.pool.cell (k, 0) (probeCell (n + 1)) := by
  intro r
  have hwait : pageWait = 100 := rfl
  have hshown : probeShown n = pageWait - (n % 200 : Nat) := by
    rw [probeShown_eq, if_neg (by omega), if_pos (by omega)]
  have hthen : probeCell (n + 1) = probeShown n := by
    rw [hshown]
    exact if_pos (by omega)
  have hbusy : (probeState n).outTestRun = true := decide_eq_true (by omega)
  have hr : r = (probeState n, s) := by
    simp only [r, apiTestOut, hbusy, if_true, pure_eq, run_ret]
  rw [hr, hthen, ← hcell, Function.update_eq_self]
  exact ⟨probeState_waits hpos hphase, rfl⟩

/-- What a call leaves. -/
theorem probe_call (havail : s.pool.avail ≠ 0) :
    let r := (apiTest.pageit s.pentry (probeState n)).run (PageCall.answer procs) s
    r.1 = (probed n).finish ∧
      r.2.pool.cell = Function.update s.pool.cell (k, 0) (probeCell (n + 1)) := by
  intro r
  have hwait : pageWait = 100 := rfl
  set t : CallTree PageCall Bool ApiTest :=
    if (s.pentry 0).pages 0 then apiTestIn s.pentry (probeState n)
    else apiTestOut s.pentry (probeState n) with ht
  have hr : r = ((t.run (PageCall.answer procs) s).1.finish,
      (t.run (PageCall.answer procs) s).2) :=
    run_bind (PageCall.answer procs) t (fun st => pure st.finish) s
  rw [hr]
  have hentry := probe_pentry htarget hcell
  suffices h : (t.run (PageCall.answer procs) s).1 = probed n ∧
      (t.run (PageCall.answer procs) s).2.pool.cell =
        Function.update s.pool.cell (k, 0) (probeCell (n + 1)) from
    ⟨congrArg ApiTest.finish h.1, h.2⟩
  by_cases hin : n % 200 = 100
  · rw [ht, if_pos (hentry.trans (decide_eq_true (by rw [probeShown_eq, hin]; rfl)))]
    exact probe_in htarget hcell hin
  · have hout : probeShown n ≠ 0 := by
      rw [probeShown_eq]
      split_ifs <;> omega
    rw [ht, if_neg (by rw [hentry, decide_eq_true_eq]; exact hout)]
    by_cases hfirst : n % 200 = 0
    · exact probe_out htarget hcell havail hfirst
    · rcases Nat.lt_or_gt_of_ne hin with hcoming | hgoing
      · exact probe_coming hcell (Nat.pos_of_ne_zero hfirst) hcoming
      · exact probe_going htarget hcell hgoing

end Call

/-! ### The run -/

variable {config : Config} {s₀ : State} {k : Fin queueSize} {n : Nat}

/-- The simulator before iteration `n`: all pages are out but page 0 of processor 0, and no job has
computed. -/
structure Probed (config : Config) (s₀ : State) (k : Fin queueSize) (n : Nat) : Prop where
  still : Still s₀ (config.run apiTest s₀ n).2
  cell : ∀ c, (config.run apiTest s₀ n).2.pool.cell c =
    if c = (k, 0) then probeCell n else -pageWait - 1
  compute : ∀ j, ((config.run apiTest s₀ n).2.queue j).compute = 0

theorem start_page (h : config.Starts s₀) (j : Fin queueSize) : (s₀.queue j).page = 0 := by
  obtain ⟨fuel, jobs, hjobs, hqueue, -⟩ := start_boot h
  rw [hqueue, Process.page, (initqueue_fresh hjobs j).pc]
  rfl

theorem start_probed (h : config.Starts s₀) (k : Fin queueSize) : Probed config s₀ k 0 := by
  obtain ⟨fuel, jobs, hjobs, hqueue, -⟩ := start_boot h
  refine ⟨⟨rfl, fun _ => rfl⟩, fun c => ?_, fun j => ?_⟩
  · have hout : (s₀.queue c.1).pages c.2 = -pageWait - 1 := by
      rw [hqueue]
      exact (initqueue_fresh hjobs c.1).pages c.2
    exact hout.trans (ite_self _).symm
  · show (s₀.queue j).compute = 0
    rw [hqueue]
    exact (initqueue_fresh hjobs j).compute

/-- No job has the page it needs. -/
theorem Probed.quiet (hprobed : Probed config s₀ k n) (h : config.Starts s₀) :
    (config.run apiTest s₀ n).2.Quiet := by
  intro slot j _
  rw [hprobed.still.page, start_page h]
  show (config.run apiTest s₀ n).2.pool.cell (j, 0) ≠ 0
  rw [hprobed.cell]
  split_ifs
  · exact probeCell_ne n
  · decide

/-- What the pager finds. -/
theorem Probed.shown (hprobed : Probed config s₀ k n) (h : config.Starts s₀)
    (hslot : s₀.processes 0 = some k) :
    let m := midTick config.procs (config.run apiTest s₀ n).2
    m.target config.procs 0 0 = some (k, 0) ∧
      (∀ c, m.pool.cell c = if c = (k, 0) then probeShown n else -pageWait - 1) ∧
      m.pool.avail ≠ 0 := by
  intro m
  have hwait : pageWait = 100 := rfl
  have hreach : config.Reaches m := (run_reaches apiTest h n).midTick
  obtain ⟨fuel, jobs, hjobs, hsched⟩ := hreach.scheduled
  have htick := quietTick (config.run apiTest s₀ n) (run_reaches apiTest h n) (hprobed.quiet h)
  have hcell : ∀ c, m.pool.cell c = if c = (k, 0) then probeShown n else -pageWait - 1 := by
    intro c
    rw [htick.aged.cell, hprobed.cell]
    split_ifs
    · rfl
    · decide
  refine ⟨?_, hcell, ?_⟩
  · have hmid : m.processes 0 = some k := by
      rw [(hprobed.still.trans htick.still_mid).processes, hslot]
    apply target_eq hmid config.procs_pos (hsched.running 0 k hmid).active
    rw [hreach.npages]
    decide
  · have htotal := hreach.framed.balanced.total
    have hheld : ∑ c, held pageWait (m.pool.cell c) ≤
        ∑ c : Cell, if c = (k, 0) then 1 else 0 := by
      apply Finset.sum_le_sum
      intro c _
      rw [hcell, held]
      split_ifs <;> omega
    rw [Finset.sum_ite_eq' Finset.univ, if_pos (Finset.mem_univ _)] at hheld
    have hframes : (physicalPages : Int) = 100 := rfl
    omega

/-- An iteration. -/
theorem Probed.succ (hprobed : Probed config s₀ k n) (h : config.Starts s₀)
    (hslot : s₀.processes 0 = some k) (hmemory : (config.run apiTest s₀ n).1 = probeState n) :
    Probed config s₀ k (n + 1) ∧ (config.run apiTest s₀ (n + 1)).1 = (probed n).finish := by
  obtain ⟨fuel, jobs, hjobs, hsched⟩ := (run_reaches apiTest h n).scheduled
  have hquiet := hprobed.quiet h
  have htick := quietTick (config.run apiTest s₀ n) (run_reaches apiTest h n) hquiet
  obtain ⟨htarget, hcell, havail⟩ := hprobed.shown h hslot
  obtain ⟨hfinish, hpool⟩ := probe_call htarget (by rw [hcell, if_pos rfl]) havail
  refine ⟨⟨?_, ?_, ?_⟩, ?_⟩
  · rw [run_succ]
    exact hprobed.still.trans (htick.still_mid.trans htick.still)
  · intro c
    have hnext : (config.run apiTest s₀ (n + 1)).2.pool.cell =
        Function.update (midTick config.procs (config.run apiTest s₀ n).2).pool.cell (k, 0)
          (probeCell (n + 1)) := by
      rw [← hpool, ← hmemory, run_succ]
      rfl
    rw [hnext]
    by_cases hc : c = (k, 0)
    · rw [hc, Function.update_self, if_pos rfl]
    · rw [Function.update_of_ne hc, hcell, if_neg hc, if_neg hc]
  · intro j
    rw [run_succ, (paged_tick apiTest config.procs _).compute]
    obtain ⟨blocked, block, hj⟩ := (blocked_allstep hsched hquiet).queue j
    rw [hj]
    exact hprobed.compute j
  · rw [← hfinish, ← hmemory, run_succ]
    rfl

/-- Until the last call, `pageit` has the static variables expected of it. -/
theorem probed_run (h : config.Starts s₀) (hslot : s₀.processes 0 = some k) (hn : n ≤ 500) :
    Probed config s₀ k n ∧ (config.run apiTest s₀ n).1 = probeState n := by
  induction n with
  | zero => exact ⟨start_probed h k, rfl⟩
  | succ n ih =>
      obtain ⟨hprobed, hmemory⟩ := ih (Nat.le_of_succ_le hn)
      obtain ⟨hprobed', hfinish⟩ := hprobed.succ h hslot hmemory
      refine ⟨hprobed', hfinish.trans ?_⟩
      have hfew : ¬(probed n).iterations > maxIterations := by
        show ¬(n + 1 + 99) / 100 > 5
        omega
      rw [ApiTest.finish, if_neg hfew]
      rfl

theorem callyou_exited {procs : Nat} {s : State} {st : ApiTest} (h : st.exited = true) :
    callyou apiTest procs (st, s) = (st, s) := by
  show CallTree.run (PageCall.answer procs) (if st.exited then pure st else _) s = (st, s)
  rw [if_pos h]
  rfl

/-- After `exit` nothing is called. -/
theorem exited_stays (n m : Nat) (hexited : (config.run apiTest s₀ n).1.exited = true)
    (hle : n ≤ m) : (config.run apiTest s₀ m).1 = (config.run apiTest s₀ n).1 := by
  induction m, hle using Nat.le_induction with
  | base => rfl
  | succ m _ ih =>
      have hexited' : (config.run apiTest s₀ m).1.exited = true := ih ▸ hexited
      rw [run_succ, tick, callyou_exited hexited', ih]

/-- **The test of the paging interface is the same everywhere.** For every random stream, number of
processors and table of programs: the test ends the program in the call of iteration 500 and not
before, it has printed just the expected lines by then, and no job has executed an instruction. -/
theorem apiTest_transcript (config : Config) (s₀ : State) (h : config.Starts s₀) :
    (∀ n, (config.run apiTest s₀ n).1.exited = true ↔ 501 ≤ n) ∧
    (config.run apiTest s₀ 501).1.stdout =
      (List.range 501).flatMap probeLines ++ [exitingLine] ∧
    ∀ n, n ≤ 501 → alldone config.procs (config.run apiTest s₀ n).2 = false ∧
      (config.run apiTest s₀ n).2.computeTotal = 0 := by
  obtain ⟨k, hslot⟩ := Option.isSome_iff_exists.mp (start_loaded h config.procs_pos)
  obtain ⟨hlast, hmemory⟩ := probed_run h hslot (n := 500) le_rfl
  obtain ⟨hend, hfinish⟩ := hlast.succ h hslot hmemory
  have hmany : (probed 500).iterations > maxIterations := by decide
  rw [ApiTest.finish, if_pos hmany] at hfinish
  have hexited : (config.run apiTest s₀ 501).1.exited = true := by rw [hfinish]
  refine ⟨fun n => ?_, ?_, fun n hn => ?_⟩
  · rcases Nat.lt_or_ge n 501 with hlt | hge
    · rw [(probed_run h hslot (Nat.le_of_lt_succ hlt)).2]
      exact iff_of_false Bool.false_ne_true (not_le.mpr hlt)
    · rw [exited_stays 501 n hexited hge]
      exact iff_of_true hexited hge
  · rw [hfinish]
    exact congrArg (· ++ [exitingLine]) (probed_lines 500)
  · have hprobed : Probed config s₀ k n := by
      rcases Nat.lt_or_ge n 501 with hlt | hge
      · exact (probed_run h hslot (Nat.le_of_lt_succ hlt)).1
      · rw [le_antisymm hn hge]
        exact hend
    refine ⟨?_, Finset.sum_eq_zero fun j _ => hprobed.compute j⟩
    rw [Bool.eq_false_iff]
    intro hdone
    obtain ⟨fuel, jobs, -, hsched⟩ := (run_reaches apiTest h n).scheduled
    exact (hsched.idle_of_alldone config.procs_pos hdone k).2 0
      ((congrFun hprobed.still.processes 0).trans hslot)

theorem apiTest_transcript_alternating : ∃ s₀, alternatingConfig.Starts s₀ ∧
    (alternatingConfig.run apiTest s₀ 501).1.stdout =
      (List.range 501).flatMap probeLines ++ [exitingLine] := by
  obtain ⟨s₀, hstart⟩ := alternatingConfig_starts
  exact ⟨s₀, hstart, (apiTest_transcript alternatingConfig s₀ hstart).2.1⟩

end OperatingSystems.Simulator
