import OperatingSystems.ProgramHalting
import OperatingSystems.ProgramPseudo
import Mathlib.Tactic.NormNum

/-!
Tables that lay out a piece of pseudo-code. A program with such tables follows every trace of the
code, as long as no `GOTO` is executed so often that its context changes its mind, and some trace
exists whenever the code ends.
-/

namespace OperatingSystems.Simulator

open Traces

/-- The instructions of a program, seen by their addresses. -/
def controls : Machine Control Int := ⟨Control.next, Control.pc⟩

theorem emits_course {c d : Control} {l : List Int} (h : controls.Emits c l d) :
    c.Lasts l.length ∧ c.pcs l.length = l ∧ c.course l.length = d := by
  induction h with
  | refl => exact ⟨fun m hm => absurd hm (Nat.not_lt_zero m), rfl, rfl⟩
  | step hnext _ ih =>
      obtain ⟨hlasts, hpcs, hcourse⟩ := ih
      refine ⟨.cons hnext hlasts, ?_, ?_⟩
      · rw [List.length_cons, Control.pcs_next hnext, hpcs]
        rfl
      · rw [List.length_cons, Control.course_next hnext, hcourse]

/-- The tables have the branches of the code from a slot on, for its instructions from an address
on, with the address of the label around it. -/
def Code.LaidOut (p : Program) : Code → Nat → Int → Int → Prop
  | .run k, _, addr, _ => p.Clear addr (addr + k)
  | .seq first rest, slot, addr, target =>
      first.LaidOut p slot addr target ∧
        rest.LaidOut p (slot + first.slots) (addr + first.size) target
  | .cond prob yes no, slot, addr, target =>
      (p.branch slot = ⟨addr, addr + 1 + yes.size + 1, .IF, 0, 0, 1 - prob⟩ ∧
        yes.LaidOut p (slot + 1) (addr + 1) target) ∧
      p.branch (slot + 1 + yes.slots : Nat) =
        ⟨addr + 1 + yes.size, addr + 1 + yes.size + 1 + no.size, .GOTO, 0, 0, 1⟩ ∧
      no.LaidOut p (slot + 1 + yes.slots + 1) (addr + 1 + yes.size + 1) target
  | .loop lo hi body, slot, addr, target =>
      body.LaidOut p slot addr target ∧
        p.branch (slot + body.slots : Nat) = ⟨addr + body.size, addr, .FOR, lo, hi, 0⟩
  | .label body, slot, addr, _ => body.LaidOut p slot addr addr
  | .goto, slot, addr, target => p.branch slot = ⟨addr, target, .GOTO, 0, 0, 1⟩

/-- A program whose branches lead to its addresses, with a table of decisions for each of them. -/
structure Program.Equipped (p : Program) (tables : Nat → Bcontext) : Prop where
  ordered : p.Ordered
  branchAt : ∀ k, k < p.branches.length → p.BranchAt k (p.branch k).wherefrom
  suits : ∀ k, k < p.branches.length → (tables k).Suits (p.branch k)

/-! ### Jumps -/

/-- No `GOTO` is executed more often than its context jumps. -/
def jumpBudget (p : Program) : Budget Code.Counts Int where
  allows s l := ∀ k : Nat, k < p.branches.length → (p.branch k).btype = .GOTO →
    s k + l.count (p.branch k).wherefrom < Bcontext.jumps
  left h k hk hgoto := by
    have := h k hk hgoto
    rw [List.count_append] at this
    omega

section Spends

variable {p : Program} {s : Code.Counts} {k : Nat}

theorem jumpBudget_tick {addr : Int} {l : List Int}
    (hk : (p.branch k).btype = .GOTO → (p.branch k).wherefrom = addr)
    (h : (jumpBudget p).allows s (addr :: l)) : (jumpBudget p).allows (s.tick k) l := by
  intro j hj hgoto
  have hcount := h j hj hgoto
  by_cases heq : j = k
  · subst heq
    rw [hk hgoto, List.count_cons_self] at hcount
    rw [hk hgoto, Code.Counts.tick, Function.update_self]
    omega
  · rw [List.count_cons] at hcount
    rw [Code.Counts.tick, Function.update_of_ne heq]
    omega

/-- The count of a loop does not matter. -/
theorem jumpBudget_enter {l : List Int} (hk : (p.branch k).btype = .FOR)
    (h : (jumpBudget p).allows s l) : (jumpBudget p).allows (s.tick k) l := by
  intro j hj hgoto
  have hne : j ≠ k := by
    rintro rfl
    rw [hk] at hgoto
    cases hgoto
  rw [Code.Counts.tick, Function.update_of_ne hne]
  exact h j hj hgoto

theorem spends_plain (l : List Int) : (Code.Plain l).Spends (jumpBudget p) := by
  rintro s _ _ _ l' ⟨rfl, rfl, rfl⟩ hl j hj hgoto
  have := hl j hj hgoto
  rw [List.count_append] at this
  omega

theorem spends_jumps {addr : Int} (hk : (p.branch k).wherefrom = addr) (out : Outcome) :
    (Code.Jumps k addr out).Spends (jumpBudget p) := by
  rintro s _ _ _ l' ⟨rfl, rfl, rfl⟩ hl
  exact jumpBudget_tick (fun _ => hk) hl

theorem spends_decides {addr : Int} (c : Bcontext) (hk : (p.branch k).wherefrom = addr) (v : Bool) :
    (Code.Decides c k addr v).Spends (jumpBudget p) := by
  rintro s _ _ _ l' ⟨-, rfl, rfl, rfl⟩ hl
  exact jumpBudget_tick (fun _ => hk) hl

/-- The budget covers what is counted. -/
theorem Code.spends {code : Code} {slot : Nat} {addr target : Int} (tables : Nat → Bcontext)
    (h : code.LaidOut p slot addr target) :
    (code.traces tables slot addr).Spends (jumpBudget p) := by
  induction code generalizing slot addr target with
  | run k => exact spends_plain _
  | seq first rest ihfirst ihrest => exact (ihfirst h.1).seq (ihrest h.2)
  | cond prob yes no ihyes ihno =>
      obtain ⟨⟨hif, hyes⟩, hjoin, hno⟩ := h
      have hfrom : (p.branch slot).wherefrom = addr := by rw [hif]
      have hjump := spends_jumps (congrArg Branch.wherefrom hjoin) .finished
      exact ((spends_decides _ hfrom _).seq ((ihyes hyes).seq hjump)).or
        ((spends_decides _ hfrom _).seq (ihno hno))
  | loop lo hi body ih =>
      obtain ⟨hbody, hfor⟩ := h
      rintro s l o s' l' ⟨-, hrounds⟩ hl
      have hbtype := congrArg Branch.btype hfor
      exact ((ih hbody).seq (spends_plain _)).times _ hrounds (jumpBudget_enter hbtype hl)
  | label body ih => exact (ih h).labelled
  | goto =>
      have hgoto : p.branch slot = ⟨addr, target, .GOTO, 0, 0, 1⟩ := h
      exact spends_jumps (congrArg Branch.wherefrom hgoto) _

end Spends

/-! ### Links -/

/-- How many decisions of its table a branch has taken when it is counted `n` times. -/
def Program.decided (p : Program) (tables : Nat → Bcontext) (k n : Nat) : Nat :=
  if (p.branch k).btype = .FOR then (tables k).begins (2 * n) else n

/-- The context of a branch has taken the decisions that the count says. -/
def Program.Tracks (p : Program) (tables : Nat → Bcontext) (k n : Nat) (d : Bcontext) : Prop :=
  (tables k).Stands d (p.decided tables k n)

theorem Program.tracks_of_ne {p : Program} {tables : Nat → Bcontext} {k n : Nat} {d : Bcontext}
    (hbtype : (p.branch k).btype ≠ .FOR) : p.Tracks tables k n d ↔ (tables k).Stands d n := by
  rw [Program.Tracks, Program.decided, if_neg hbtype]

theorem Program.tracks_loop {p : Program} {tables : Nat → Bcontext} {k n : Nat} {d : Bcontext}
    (hbtype : (p.branch k).btype = .FOR) :
    p.Tracks tables k n d ↔ (tables k).Stands d ((tables k).begins (2 * n)) := by
  rw [Program.Tracks, Program.decided, if_pos hbtype]

/-- The program stands at the address, and the contexts are in their relations to the counts. -/
def Linked (p : Program) (rel : Nat → Nat → Bcontext → Prop) (pc : Int) (s : Code.Counts)
    (c : Control) : Prop :=
  ∃ contexts, c = ⟨p, contexts, pc⟩ ∧ ∀ k, rel k (s k) (contexts k)

section Follows

variable {p : Program} {tables : Nat → Bcontext} {B : Budget Code.Counts Int}
  {rel : Nat → Nat → Bcontext → Prop} {post exit : Code.Counts → Control → Prop} {k : Nat}

theorem rel_update {s : Code.Counts} {contexts : Nat → Bcontext} {d : Bcontext} {n : Nat}
    (h : ∀ j, rel j (s j) (contexts j)) (hd : rel k n d) (j : Nat) :
    rel j (Function.update s k n j) (Function.update contexts k d j) := by
  by_cases hj : j = k
  · subst hj
    rwa [Function.update_self, Function.update_self]
  · rw [Function.update_of_ne hj, Function.update_of_ne hj]
    exact h j

/-- A branch of which it is known what its table says next. -/
theorem next_said {pc : Int} {contexts : Nat → Bcontext} {t : Nat} {v : Bool}
    (h : p.BranchAt k pc) (hfilled : (tables k).Filled)
    (hstands : (tables k).Stands (contexts k) t) (hsaid : (tables k).Says t v) :
    (⟨p, contexts, pc⟩ : Control).next = some ⟨p,
      Function.update contexts k (bcontextDecide (contexts k)).2, p.outcome k pc v⟩ := by
  rw [h.next_eq, Bcontext.Stands.decide hfilled hstands hsaid]

theorem follows_line (hp : p.Ordered) {addr : Int} {n : Nat} (h : p.Clear addr (addr + n)) :
    controls.Follows B (Code.Plain (Code.line addr n)) (Linked p rel addr)
      (Linked p rel (addr + n)) exit := by
  have hemits : ∀ contexts m, m ≤ n → controls.Emits ⟨p, contexts, addr⟩ (Code.line addr m)
      ⟨p, contexts, addr + m⟩ := by
    intro contexts m hm
    induction m with
    | zero =>
        rw [Nat.cast_zero, Int.add_zero]
        exact .refl
    | succ m ih =>
        have hnext : (⟨p, contexts, addr + m⟩ : Control).next = some ⟨p, contexts, addr + m + 1⟩ :=
          h.next hp (by omega) (by omega) contexts
        rw [Int.add_assoc] at hnext
        rw [Code.line, List.range_succ, List.map_append]
        exact (ih (by omega)).append (.step hnext .refl)
  rintro s _ _ _ _ ⟨contexts, rfl, hrel⟩ ⟨rfl, rfl, rfl⟩ -
  exact ⟨_, hemits contexts n le_rfl, contexts, rfl, hrel⟩

/-- A branch that is counted with every decision. -/
theorem emits_branch {addr : Int} (h : p.BranchAt k addr) (hfilled : (tables k).Filled)
    (hbtype : (p.branch k).btype ≠ .FOR) (hrel : rel k = p.Tracks tables k) {s : Code.Counts}
    {c : Control} (hc : Linked p rel addr s c) {v : Bool} (hsaid : (tables k).Says (s k) v) :
    ∃ d, controls.Emits c [addr] d ∧ Linked p rel (p.outcome k addr v) (s.tick k) d := by
  obtain ⟨contexts, rfl, hall⟩ := hc
  have hstands := hall k
  rw [hrel, Program.tracks_of_ne hbtype] at hstands
  refine ⟨_, .step (next_said h hfilled hstands hsaid) .refl, _, rfl, rel_update hall ?_⟩
  rw [hrel, Program.tracks_of_ne hbtype]
  exact hstands.next hfilled

theorem follows_decides {addr : Int} (h : p.BranchAt k addr) (hfilled : (tables k).Filled)
    (hbtype : (p.branch k).btype ≠ .FOR) (hrel : rel k = p.Tracks tables k) (v : Bool) :
    controls.Follows B (Code.Decides (tables k) k addr v) (Linked p rel addr)
      (Linked p rel (p.outcome k addr v)) exit := by
  rintro s c _ _ _ hc ⟨hsaid, rfl, rfl, rfl⟩ -
  exact emits_branch h hfilled hbtype hrel hc hsaid

theorem follows_jumps {addr : Int} (h : p.BranchAt k addr) (hk : k < p.branches.length)
    (hfrom : (p.branch k).wherefrom = addr) (hgoto : (p.branch k).btype = .GOTO)
    (hsuits : (tables k).Suits (p.branch k)) (hrel : rel k = p.Tracks tables k) (out : Outcome)
    (hout : out.choose post exit = Linked p rel (p.branch k).whereto) :
    controls.Follows (jumpBudget p) (Code.Jumps k addr out) (Linked p rel addr) post exit := by
  have hbtype : (p.branch k).btype ≠ .FOR := by
    rw [hgoto]
    decide
  rintro s c _ _ _ hc ⟨rfl, rfl, rfl⟩ hallows
  have hcount := hallows k hk hgoto
  rw [hfrom, List.count_cons_self] at hcount
  have hsaid : (tables k).Says (s k) true :=
    Bcontext.says_jump (hsuits.goto hgoto).1 (hsuits.goto hgoto).2 (by omega)
  rw [hout]
  exact emits_branch h hsuits.filled hbtype hrel hc hsaid

/-- A branch over one of two parts, and the jump from the end of the first over the other. -/
theorem follows_cond {P Q : Behaviour Code.Counts Int} {addr join other after target : Int}
    {prob : ℚ} {k' : Nat} (hp : p.Equipped tables) (hk : k < p.branches.length)
    (hk' : k' < p.branches.length) (hif : p.branch k = ⟨addr, other, .IF, 0, 0, prob⟩)
    (hjoin : p.branch k' = ⟨join, after, .GOTO, 0, 0, 1⟩) (hrel : rel k = p.Tracks tables k)
    (hrel' : rel k' = p.Tracks tables k') (hspends : P.Spends (jumpBudget p))
    (hP : controls.Follows (jumpBudget p) P (Linked p rel (addr + 1)) (Linked p rel join)
      (Linked p rel target))
    (hQ : controls.Follows (jumpBudget p) Q (Linked p rel other) (Linked p rel after)
      (Linked p rel target)) :
    controls.Follows (jumpBudget p)
      (((Code.Decides (tables k) k addr false).Seq (P.Seq (Code.Jumps k' join .finished))).Or
        ((Code.Decides (tables k) k addr true).Seq Q))
      (Linked p rel addr) (Linked p rel after) (Linked p rel target) := by
  have hbranch := hp.branchAt k hk
  have hbranch' := hp.branchAt k' hk'
  rw [hif] at hbranch
  rw [hjoin] at hbranch'
  have hbtype : (p.branch k).btype ≠ .FOR := by
    rw [hif]
    exact BranchType.noConfusion
  have hfrom : (p.branch k).wherefrom = addr := congrArg Branch.wherefrom hif
  have hother : p.outcome k addr true = other := congrArg Branch.whereto hif
  have hdecides : ∀ v, controls.Follows (jumpBudget p) (Code.Decides (tables k) k addr v)
      (Linked p rel addr) (Linked p rel (p.outcome k addr v)) (Linked p rel target) :=
    follows_decides hbranch (hp.suits k hk).filled hbtype hrel
  refine .or (.seq (spends_decides _ hfrom _) (hdecides false) (.seq hspends hP ?_))
    (.seq (spends_decides _ hfrom _) (hdecides true) (hother ▸ hQ))
  refine follows_jumps hbranch' hk' (congrArg Branch.wherefrom hjoin)
    (congrArg Branch.btype hjoin) (hp.suits k' hk') hrel' _ ?_
  rw [hjoin]
  rfl

/-- The relations during a loop that has been entered `e` times before: its branch is counted, and
has been executed `j` times since. -/
def turning (tables : Nat → Bcontext) (rel : Nat → Nat → Bcontext → Prop) (k e j : Nat) :
    Nat → Nat → Bcontext → Prop :=
  Function.update rel k fun n d =>
    n = e + 1 ∧ (tables k).Stands d ((tables k).begins (2 * e) + j)

theorem turning_self {e j n : Nat} {d : Bcontext} : turning tables rel k e j k n d ↔
    n = e + 1 ∧ (tables k).Stands d ((tables k).begins (2 * e) + j) := by
  rw [turning, Function.update_self]

theorem turning_of_ne {e j i : Nat} (hi : i ≠ k) : turning tables rel k e j i = rel i :=
  Function.update_of_ne hi ..

/-- The branch at the end of a round. -/
theorem follows_back {back : Int} {e j : Nat} {v : Bool} (h : p.BranchAt k back)
    (hfilled : (tables k).Filled) (hsaid : (tables k).Says ((tables k).begins (2 * e) + j) v) :
    controls.Follows B (Code.Plain [back]) (Linked p (turning tables rel k e j) back)
      (Linked p (turning tables rel k e (j + 1)) (p.outcome k back v)) exit := by
  rintro s _ _ _ _ ⟨contexts, rfl, hall⟩ ⟨rfl, rfl, rfl⟩ -
  obtain ⟨hcount, hstands⟩ := turning_self.mp (hall k)
  refine ⟨_, .step (next_said h hfilled hstands hsaid) .refl, _, rfl, fun i => ?_⟩
  by_cases hi : i = k
  · subst hi
    rw [Function.update_self]
    exact turning_self.mpr ⟨hcount, hstands.next hfilled⟩
  · have hother := hall i
    rw [turning_of_ne hi] at hother
    rw [turning_of_ne hi, Function.update_of_ne hi]
    exact hother

/-- The links of a loop by the number of rounds that are left, of `n + 1`. -/
def roundLink (p : Program) (tables : Nat → Bcontext) (rel : Nat → Nat → Bcontext → Prop)
    (k e n : Nat) (addr back : Int) : Nat → Code.Counts → Control → Prop
  | 0 => Linked p (turning tables rel k e (n + 1)) (back + 1)
  | i + 1 => Linked p (turning tables rel k e (n - i)) addr

section Loop

variable {P : Behaviour Code.Counts Int} {addr back target lo hi : Int}
  (hfor : p.branch k = ⟨back, addr, .FOR, lo, hi, 0⟩) (h : p.BranchAt k back)
  (hsuits : (tables k).Suits (p.branch k)) (hspends : P.Spends (jumpBudget p))
  (hbody : ∀ rel', (∀ i, i ≠ k → rel' i = rel i) →
    controls.Follows (jumpBudget p) P (Linked p rel' addr) (Linked p rel' back)
      (Linked p rel' target))

include hfor h hsuits hspends hbody

/-- The rounds of a loop. Its table says to go back after each of them but the last. -/
theorem follows_rounds (e : Nat) :
    controls.Follows (jumpBudget p)
      ((P.Seq (Code.Plain [back])).Times (((tables k).rounds e).toNat + 1))
      (Linked p (turning tables rel k e 0) addr)
      (Linked p (turning tables rel k e (((tables k).rounds e).toNat + 1)) (back + 1)) exit := by
  have hbtype : (p.branch k).btype = .FOR := congrArg Branch.btype hfor
  have hrepeats := hsuits.loop hbtype
  have hsaysBack := fun j => hrepeats.says_back e (j := j)
  have hsaysOn := hrepeats.says_on hsuits.filled e
  generalize ((tables k).rounds e).toNat = n at hsaysBack hsaysOn ⊢
  have hround : ∀ i, i < n + 1 → controls.Follows (jumpBudget p) (P.Seq (Code.Plain [back]))
      (roundLink p tables rel k e n addr back (i + 1)) (roundLink p tables rel k e n addr back i)
      (Linked p (turning tables rel k e (n - i)) target) := by
    intro i hi
    refine (hbody _ fun j hj => turning_of_ne hj).seq hspends ?_
    cases i with
    | zero => exact follows_back h hsuits.filled hsaysOn
    | succ i =>
        have hcount : n - i = n - (i + 1) + 1 := by omega
        have hto : addr = p.outcome k back true := by rw [Program.outcome, if_pos rfl, hfor]
        rw [roundLink, hcount, hto]
        exact follows_back h hsuits.filled (hsaysBack _ (by omega))
  have htimes : controls.Follows (jumpBudget p) _ (roundLink p tables rel k e n addr back (n + 1))
      (roundLink p tables rel k e n addr back 0) exit :=
    .times (hspends.seq (spends_plain _)) hround
  rwa [roundLink, roundLink, Nat.sub_self] at htimes

/-- A loop. While it turns, its body may rely on the relations of all other branches. -/
theorem follows_loop (hrel : rel k = p.Tracks tables k) :
    controls.Follows (jumpBudget p)
      (fun s l o s' => (P.Seq (Code.Plain [back])).Times (((tables k).rounds (s k)).toNat + 1)
        (s.tick k) l o s')
      (Linked p rel addr) (Linked p rel (back + 1)) exit := by
  have hbtype : (p.branch k).btype = .FOR := congrArg Branch.btype hfor
  have hbegins := (hsuits.loop hbtype).blocks.begins_succ hsuits.filled
  rintro s _ l o s' ⟨contexts, rfl, hall⟩ hrounds hallows
  have hentered : Linked p (turning tables rel k (s k) 0) addr (s.tick k) ⟨p, contexts, addr⟩ := by
    refine ⟨contexts, rfl, fun i => ?_⟩
    by_cases hi : i = k
    · subst hi
      have hstands := hall i
      rw [hrel, Program.tracks_loop hbtype] at hstands
      exact turning_self.mpr ⟨Function.update_self .., hstands⟩
    · rw [turning_of_ne hi, Code.Counts.tick, Function.update_of_ne hi]
      exact hall i
  have hleft : ∀ {pc s' c}, Linked p (turning tables rel k (s k)
      (((tables k).rounds (s k)).toNat + 1)) pc s' c → Linked p rel pc s' c := by
    rintro pc s' _ ⟨contexts, rfl, hturned⟩
    refine ⟨contexts, rfl, fun i => ?_⟩
    by_cases hi : i = k
    · subst hi
      obtain ⟨hcount, hstands⟩ := turning_self.mp (hturned i)
      rw [hrel, Program.tracks_loop hbtype, hcount, hbegins]
      exact hstands
    · have hother := hturned i
      rwa [turning_of_ne hi] at hother
  have hfollows : controls.Follows (jumpBudget p) _ _ _ exit :=
    follows_rounds hfor h hsuits hspends hbody (s k)
  obtain ⟨c, hemits, hc⟩ := hfollows hentered hrounds (jumpBudget_enter hbtype hallows)
  refine ⟨c, hemits, ?_⟩
  cases o with
  | finished => exact hleft hc
  | jumped => exact hc

end Loop

/-- **The tables refine the code.** A program whose tables lay out the code follows its traces, and
then stands behind it, or at the label around it. -/
theorem Code.follows {code : Code} {slot : Nat} {addr after target : Int} (hp : p.Equipped tables)
    (hlaid : code.LaidOut p slot addr target) (hslots : slot + code.slots ≤ p.branches.length)
    (hrel : ∀ k, slot ≤ k → k < slot + code.slots → rel k = p.Tracks tables k)
    (hafter : after = addr + code.size) :
    controls.Follows (jumpBudget p) (code.traces tables slot addr) (Linked p rel addr)
      (Linked p rel after) (Linked p rel target) := by
  induction code generalizing slot addr after target rel with
  | run k =>
      subst hafter
      exact follows_line hp.ordered hlaid
  | seq first rest ihfirst ihrest =>
      simp only [Code.slots, Code.size, Nat.cast_add] at hslots hrel hafter
      obtain ⟨hfirst, hrest⟩ := hlaid
      refine (ihfirst hfirst (by omega) (fun k hk hlt => hrel k hk (by omega)) rfl).seq
        (Code.spends tables hfirst) ?_
      exact ihrest hrest (by omega) (fun k hk hlt => hrel k (by omega) (by omega)) (by omega)
  | cond prob yes no ihyes ihno =>
      simp only [Code.slots, Code.size, Nat.cast_add] at hslots hrel hafter
      obtain ⟨⟨hif, hyes⟩, hjoin, hno⟩ := hlaid
      obtain rfl : after = addr + 1 + yes.size + 1 + no.size := by omega
      refine follows_cond hp (by omega) (by omega) hif hjoin (hrel _ le_rfl (by omega))
        (hrel _ (by omega) (by omega)) (Code.spends tables hyes) ?_ ?_
      · exact ihyes hyes (by omega) (fun k hk hlt => hrel k (by omega) (by omega)) rfl
      · exact ihno hno (by omega) (fun k hk hlt => hrel k (by omega) (by omega)) rfl
  | loop lo hi body ih =>
      simp only [Code.slots, Code.size, Nat.cast_add] at hslots hrel hafter
      obtain ⟨hbody, hfor⟩ := hlaid
      have hbranch := hp.branchAt (slot + body.slots) (by omega)
      rw [hfor] at hbranch
      obtain rfl : after = addr + body.size + 1 := by omega
      have hturns : ∀ rel', (∀ k, k ≠ slot + body.slots → rel' k = rel k) →
          controls.Follows (jumpBudget p) (body.traces tables slot addr) (Linked p rel' addr)
            (Linked p rel' (addr + body.size)) (Linked p rel' target) := by
        intro rel' hrel'
        refine ih hbody (by omega) (fun k hk hlt => ?_) rfl
        rw [hrel' k (by omega)]
        exact hrel k hk (by omega)
      intro s m l o s' hlinked htrace hallows
      exact follows_loop hfor hbranch (hp.suits _ (by omega)) (Code.spends tables hbody) hturns
        (hrel _ (by omega) (by omega)) hlinked htrace.2 hallows
  | label body ih =>
      exact (ih hlaid hslots hrel hafter).labelled (Code.spends tables hlaid)
  | goto =>
      have hgoto : p.branch slot = ⟨addr, target, .GOTO, 0, 0, 1⟩ := hlaid
      have hbranch := hp.branchAt slot hslots
      rw [hgoto] at hbranch
      refine follows_jumps hbranch hslots ?_ ?_ (hp.suits slot hslots)
        (hrel slot le_rfl (Nat.lt_succ_self slot)) _ ?_
      · rw [hgoto]
      · rw [hgoto]
      · rw [hgoto]
        rfl

end Follows

/-! ### Code that ends -/

/-- Code without jumps, but for an `if` that leads back over a straight line until it fails. -/
inductive Code.Ends : Code → Prop
  | run (k : Nat) : Ends (.run k)
  | seq {first rest : Code} (hfirst : Ends first) (hrest : Ends rest) : Ends (.seq first rest)
  | cond {prob : ℚ} {yes no : Code} (hyes : Ends yes) (hno : Ends no) : Ends (.cond prob yes no)
  | loop {lo hi : Int} {body : Code} (hbody : Ends body) : Ends (.loop lo hi body)
  | retry {k : Nat} {prob : ℚ} {no : Code} (hno : Ends no) :
      Ends (.label (.seq (.run k) (.cond prob .goto no)))

section Ends

variable {p : Program} {tables : Nat → Bcontext}

theorem plain_finishes (l : List Int) : (Code.Plain l).Finishes := fun s => ⟨l, s, rfl, rfl, rfl⟩

theorem jumps_finishes (k : Nat) (addr : Int) : (Code.Jumps k addr .finished).Finishes :=
  fun s => ⟨[addr], s.tick k, rfl, rfl, rfl⟩

/-- An `if` finishes if both its parts do. -/
theorem cond_finishes {c : Bcontext} (hfilled : c.Filled) (k : Nat) (addr : Int)
    {P Q : Behaviour Code.Counts Int} (hP : P.Finishes) (hQ : Q.Finishes) :
    (((Code.Decides c k addr false).Seq P).Or ((Code.Decides c k addr true).Seq Q)).Finishes := by
  intro s
  obtain ⟨v, hv⟩ := hfilled.exists_said (s k)
  cases v with
  | false =>
      obtain ⟨l, s', h⟩ := hP (s.tick k)
      exact ⟨_, s', Or.inl (.next ⟨hv, rfl, rfl, rfl⟩ h)⟩
  | true =>
      obtain ⟨l, s', h⟩ := hQ (s.tick k)
      exact ⟨_, s', Or.inr (.next ⟨hv, rfl, rfl, rfl⟩ h)⟩

/-- An `if` that leads back fails in the end, since its table decides each way time and again. -/
theorem retry_finishes {c : Bcontext} (hfilled : c.Filled) {k k' : Nat} (hne : k ≠ k')
    (addr addr' : Int) (l : List Int) {P Q : Behaviour Code.Counts Int} (hQ : Q.Finishes) :
    ((Code.Plain l).Seq (((Code.Decides c k addr false).Seq
        ((Code.Jumps k' addr' .jumped).Seq P)).Or
      ((Code.Decides c k addr true).Seq Q))).Labelled.Finishes := by
  intro s
  obtain ⟨n, hn⟩ := hfilled.says_later (s k) true
  refine Behaviour.Labelled.finishes (fun n s => c.Says (s k + n) true) (fun n s hs => ?_) hn
  obtain ⟨v, hv⟩ := hfilled.exists_said (s k)
  cases v with
  | true =>
      obtain ⟨l', s', h⟩ := hQ (s.tick k)
      exact Or.inl ⟨_, s', .next ⟨rfl, rfl, rfl⟩ (Or.inr (.next ⟨hv, rfl, rfl, rfl⟩ h))⟩
  | false =>
      cases n with
      | zero => exact absurd (hfilled.says_unique hs hv) (by decide)
      | succ n =>
          refine Or.inr ⟨_, (s.tick k).tick k', n, .next ⟨rfl, rfl, rfl⟩
            (Or.inl (.next ⟨hv, rfl, rfl, rfl⟩ (.jump ⟨rfl, rfl, rfl⟩))), ?_, Nat.lt_succ_self n⟩
          have hcount : (s.tick k).tick k' k = s k + 1 := by
            rw [Code.Counts.tick, Function.update_of_ne hne, Code.Counts.tick,
              Function.update_self]
          rw [hcount, Nat.add_assoc, Nat.add_comm 1 n]
          exact hs

/-- With full tables, code that ends has a trace. -/
theorem Code.Ends.finishes {code : Code} (hends : code.Ends) (hp : p.Equipped tables) {slot : Nat}
    {addr target : Int} (hlaid : code.LaidOut p slot addr target)
    (hslots : slot + code.slots ≤ p.branches.length) :
    (code.traces tables slot addr).Finishes := by
  induction hends generalizing slot addr target with
  | run k => exact plain_finishes _
  | seq _ _ ihfirst ihrest =>
      simp only [Code.slots] at hslots
      exact (ihfirst hlaid.1 (by omega)).seq (ihrest hlaid.2 (by omega))
  | cond _ _ ihyes ihno =>
      simp only [Code.slots] at hslots
      exact cond_finishes (hp.suits slot (by omega)).filled _ _
        ((ihyes hlaid.1.2 (by omega)).seq (jumps_finishes _ _)) (ihno hlaid.2.2 (by omega))
  | @loop lo hi body _ ih =>
      simp only [Code.slots] at hslots
      obtain ⟨hbody, hfor⟩ := hlaid
      intro s
      have hsuits := hp.suits (slot + body.slots) (by omega)
      have hrounds := (hsuits.loop (congrArg Branch.btype hfor)).mem_rounds hsuits.filled
        (s (slot + body.slots))
      rw [hfor] at hrounds
      obtain ⟨l, s', h⟩ := ((ih hbody (by omega)).seq (plain_finishes _)).times _ _
      exact ⟨l, s', hrounds, h⟩
  | @retry k prob no _ ih =>
      simp only [Code.slots] at hslots
      obtain ⟨-, -, -, hno⟩ := hlaid
      refine retry_finishes (hp.suits slot (by omega)).filled (Nat.lt_succ_self slot).ne _ _ _
        (ih hno ?_)
      simp only [Code.slots]
      omega

end Ends

/-! ### The five programs -/

theorem pseudo_ends (t : Fin programCount) : (pseudo t).Ends := by
  match t with
  | 0 => exact .loop (.seq (.run _) (.cond (.run _) (.run _)))
  | 1 => exact .loop (.run _)
  | 2 => exact .loop (.seq (.run _) (.loop (.run _)))
  | 3 => exact .run _
  | 4 => exact .loop (.retry (.run _))

/-- Only the last program has a label. -/
theorem pseudo_unlabelled (t : Fin programCount) (hlabel : t ≠ 4) : (pseudo t).Unlabelled := by
  match t with
  | 0 => exact ⟨trivial, trivial, trivial⟩
  | 1 => trivial
  | 2 => exact ⟨trivial, trivial⟩
  | 3 => trivial
  | 4 => exact absurd rfl hlabel

theorem pseudo_slots (t : Fin programCount) :
    0 + (pseudo t).slots = (programs t).branches.length := by
  revert t
  decide

theorem pseudo_size (t : Fin programCount) : (programs t).exits = [((pseudo t).size : Int)] := by
  revert t
  decide

/-- The tables lay out the pseudo-code, if there are branches in it. -/
theorem pseudo_laidOut (t : Fin programCount) (ht : t ≠ 3) :
    (pseudo t).LaidOut (programs t) 0 0 0 := by
  match t with
  | 0 =>
      have hfirst : (programs 0).Clear 0 500 := by decide
      have hyes : (programs 0).Clear 501 1401 := by decide
      have hno : (programs 0).Clear 1402 1533 := by decide
      have hif : (programs 0).branch 0 = ⟨500, 1402, .IF, 0, 0, 1 - 0.4⟩ :=
        congrArg (Branch.mk 500 1402 .IF 0 0) (by norm_num)
      exact ⟨⟨hfirst, ⟨hif, hyes⟩, rfl, hno⟩, rfl⟩
  | 1 =>
      have hbody : (programs 1).Clear 0 1129 := by decide
      exact ⟨hbody, rfl⟩
  | 2 =>
      have hfirst : (programs 2).Clear 0 1166 := by decide
      have hinner : (programs 2).Clear 1166 1682 := by decide
      exact ⟨⟨hfirst, hinner, rfl⟩, rfl⟩
  | 3 => exact absurd rfl ht
  | 4 =>
      have hfirst : (programs 4).Clear 0 500 := by decide
      have hno : (programs 4).Clear 503 503 := by decide
      have hif : (programs 4).branch 0 = ⟨500, 503, .IF, 0, 0, 1 - 0.5⟩ :=
        congrArg (Branch.mk 500 503 .IF 0 0) (by norm_num)
      exact ⟨⟨hfirst, ⟨hif, rfl⟩, rfl, hno⟩, rfl⟩

end OperatingSystems.Simulator
