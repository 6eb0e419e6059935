import OperatingSystems.LookupMoves

/-!
How requesters and resolvers come to an end. A requester ends when it finds every file serviced,
`threadsFinished` counts the requesters that have ended, and a resolver leaves only when all have.
-/

namespace OperatingSystems.Lookup

open Threads

variable {Line : Type} {m n : Nat}

/-! ### Positions -/

def RequesterPc.hasExited : RequesterPc Line → Bool
  | .exited => true
  | _ => false

def ResolverPc.hasExited : ResolverPc Line → Bool
  | .exited => true
  | _ => false

/-- The requester has found every file serviced. -/
def RequesterPc.finishing : RequesterPc Line → Bool
  | .lockService | .broadcastIsEmpty | .unlockService | .unlockFilesExit | .exited => true
  | _ => false

/-- The requester has added itself to `threadsFinished`. -/
def RequesterPc.counted : RequesterPc Line → Bool
  | .broadcastIsEmpty | .unlockService | .unlockFilesExit | .exited => true
  | _ => false

/-- The resolver has seen `threadsFinished == threadCount`. -/
def ResolverPc.leaving : ResolverPc Line → Bool
  | .unlockExit | .exited => true
  | _ => false

def Stream.isOpen : Stream Line → Bool
  | .opened _ _ => true
  | _ => false

/-- The lines that a stream has not yet delivered. -/
def Stream.rest : Stream Line → List Line
  | .opened _ rest => rest
  | _ => []

/-- What `canService` and `currentFile` are at each position of the loop. A requester whose scan
found nothing at all comes as far as `getline`, with no file to read. -/
def Requester.Placed (r : Requester Line) : Prop :=
  match r.pc with
  | .lockFiles => r.canService = true ∧ r.currentFile.isOpen = false
  | .lockService | .broadcastIsEmpty | .unlockService | .unlockFilesExit | .exited =>
      r.currentFile.isOpen = false
  | .unlockFiles | .lockBuffer | .getline => r.canService = true ∨ r.currentFile.isOpen = false
  | .signalDone | .unlockBuffer => r.canService = true ∧ r.currentFile.rest = []
  | .signalIsEmpty _ | .waitIsFull _ | .waitingIsFull _ | .relockBuffer _ => r.canService = true

/-- The bookkeeping of a run: the requesters' positions, the count of those that have ended, and
what ending means for a requester and for a resolver. -/
structure State.Orderly (s : State Line m n) : Prop where
  placed : ∀ i, (s.requester i).Placed
  counted : s.threadsFinished = ∑ i, (s.requester i).pc.counted.toNat
  serviced : ∀ i, (s.requester i).pc.finishing = true → ∀ file ∈ s.files, file.serviced = true
  left : ∀ j, (s.resolver j).pc.leaving = true → s.threadsFinished = m

/-! ### The scan over the files -/

theorem scan_found {files : List File} {start index : Nat} (h : scan start files = .found index) :
    ∃ file, start ≤ index ∧ files[index - start]? = some file ∧ file.serviced = false := by
  induction files generalizing start with
  | nil => simp [scan] at h
  | cons file rest ih =>
      rw [scan] at h
      split at h
      · rename_i hserviced
        obtain rfl := Scan.found.inj h
        exact ⟨file, le_rfl, by simp, by simpa using hserviced⟩
      · split at h
        · cases h
        · obtain ⟨file', hle, hget, hserviced⟩ := ih h
          refine ⟨file', by omega, ?_, hserviced⟩
          rwa [show index - start = index - (start + 1) + 1 by omega, List.getElem?_cons_succ]

theorem scan_finished {files : List File} {start : Nat} (h : scan start files = .finished) :
    ∀ file ∈ files, file.serviced = true := by
  induction files generalizing start with
  | nil => simp [scan] at h
  | cons file rest ih =>
      rw [scan] at h
      split at h
      · cases h
      · rename_i hserviced
        rw [List.forall_mem_cons]
        refine ⟨by simpa using hserviced, ?_⟩
        split at h
        · rename_i hempty
          simp [List.isEmpty_iff.mp hempty]
        · exact ih h

theorem markServiced_serviced {files : List File} {index : Nat}
    (h : ∀ file ∈ files, file.serviced = true) :
    ∀ file ∈ markServiced files index, file.serviced = true := by
  intro file hfile
  obtain ⟨k, hk, rfl⟩ := List.mem_iff_getElem.mp hfile
  simp only [markServiced, List.getElem_modify]
  split
  · rfl
  · exact h _ (List.getElem_mem _)

/-! ### One step -/

theorem Requester.Woken.placed {r r' : Requester Line} (h : r.Woken r') (hplaced : r.Placed) :
    r'.Placed := by
  rcases h with rfl | ⟨input, hpc, rfl⟩
  · exact hplaced
  · simpa [Requester.Placed, hpc] using hplaced

theorem Requester.Woken.counted_eq {r r' : Requester Line} (h : r.Woken r') :
    r'.pc.counted = r.pc.counted := by
  rcases h with rfl | ⟨input, hpc, rfl⟩
  · rfl
  · rw [hpc]
    rfl

theorem Requester.Woken.finishing_eq {r r' : Requester Line} (h : r.Woken r') :
    r'.pc.finishing = r.pc.finishing := by
  rcases h with rfl | ⟨input, hpc, rfl⟩
  · rfl
  · rw [hpc]
    rfl

theorem Resolver.Woken.leaving_eq {r r' : Resolver Line} (h : r.Woken r') :
    r'.pc.leaving = r.pc.leaving := by
  rcases h with rfl | ⟨hpc, rfl⟩
  · rfl
  · rw [hpc]
    rfl

theorem RequesterMove.placed {env : Env Line} {s s' : State Line m n} {i : Fin m}
    (h : RequesterMove env s i s') (hplaced : (s.requester i).Placed) :
    (s'.requester i).Placed := by
  cases h with
  | badStream => exact hplaced
  | closeFile =>
      cases hcan : (s.requester i).canService <;> simp [Requester.Placed, Stream.isOpen, hcan]
  | readFull index input rest hpc hfile | readStore index input rest hpc hfile
  | endOfFile index hpc hfile =>
      simpa [Requester.Placed, State.enqueue, Stream.isOpen, Stream.rest, hpc, hfile] using hplaced
  | relockStore _ hpc =>
      rw [Requester.Placed, hpc] at hplaced
      simp [Requester.Placed, State.enqueue, hplaced]
  | claim | finish hpc | noFiles hpc | report hpc | broadcast hpc | unlockService hpc | exit hpc
  | unlockFiles hpc | lockBuffer hpc | signalFull _ _ hpc | wait _ hpc | relockFull _ hpc
  | signalDone _ hpc => simp_all [Requester.Placed]

theorem RequesterMove.counted {env : Env Line} {s s' : State Line m n} {i : Fin m}
    (h : RequesterMove env s i s') (hplaced : (s.requester i).Placed) :
    s'.threadsFinished + (s.requester i).pc.counted.toNat =
      s.threadsFinished + (s'.requester i).pc.counted.toNat := by
  cases h with
  | badStream => rfl
  | signalFull _ _ hpc hsignal | signalDone _ hpc hsignal =>
      obtain ⟨resolver, rfl⟩ := hsignal.frame
      simp [RequesterPc.counted, hpc]
  | closeFile hpc =>
      rw [Requester.Placed, hpc] at hplaced
      simp [RequesterPc.counted, hpc, hplaced.1]
  | readStore _ _ _ hpc | relockStore _ hpc => simp [RequesterPc.counted, State.enqueue, hpc]
  | broadcast hpc => simp [RequesterPc.counted, State.broadcastIsEmpty, hpc]
  | claim _ hpc | finish hpc | noFiles hpc | report hpc | unlockService hpc | exit hpc
  | unlockFiles hpc | lockBuffer hpc | readFull _ _ _ hpc | endOfFile _ hpc | wait _ hpc
  | relockFull _ hpc => simp [RequesterPc.counted, hpc]

theorem RequesterMove.stays_counted {env : Env Line} {s s' : State Line m n} {i : Fin m}
    (h : RequesterMove env s i s') (hcounted : (s.requester i).pc.counted = true) :
    (s'.requester i).pc.counted = true := by
  cases h with
  | badStream => exact hcounted
  | _ => simp_all [RequesterPc.counted]

theorem RequesterMove.finishing {env : Env Line} {s s' : State Line m n} {i : Fin m}
    (h : RequesterMove env s i s') (hplaced : (s.requester i).Placed)
    (hfinishing : (s'.requester i).pc.finishing = true) :
    (s.requester i).pc.finishing = true ∨ scan 0 s.files = .finished := by
  cases h with
  | finish _ _ hscan => exact Or.inr hscan
  | closeFile hpc =>
      rw [Requester.Placed, hpc] at hplaced
      simp [RequesterPc.finishing, hplaced.1] at hfinishing
  | badStream => exact Or.inl hfinishing
  | report hpc | broadcast hpc | unlockService hpc | exit hpc => simp [RequesterPc.finishing, hpc]
  | readStore | relockStore => simp [RequesterPc.finishing, State.enqueue] at hfinishing
  | _ => simp [RequesterPc.finishing] at hfinishing

theorem RequesterMove.files {env : Env Line} {s s' : State Line m n} {i : Fin m}
    (h : RequesterMove env s i s') :
    s'.files = s.files ∨ ∃ index, s'.files = markServiced s.files index := by
  cases h with
  | claim index => exact Or.inr ⟨index, rfl⟩
  | signalFull _ _ _ hsignal | signalDone _ _ hsignal =>
      obtain ⟨resolver, rfl⟩ := hsignal.frame
      exact Or.inl rfl
  | _ => exact Or.inl rfl

theorem ResolverMove.files {env : Env Line} {s s' : State Line m n} {j : Fin n}
    (h : ResolverMove env s j s') : s'.files = s.files := by
  cases h with
  | signal _ _ hsignal =>
      obtain ⟨requester, rfl⟩ := hsignal.frame
      rfl
  | take | takeWoken => simp
  | _ => rfl

theorem ResolverMove.threadsFinished {env : Env Line} {s s' : State Line m n} {j : Fin n}
    (h : ResolverMove env s j s') : s'.threadsFinished = s.threadsFinished := by
  cases h with
  | signal _ _ hsignal =>
      obtain ⟨requester, rfl⟩ := hsignal.frame
      rfl
  | take | takeWoken => simp
  | _ => rfl

/-- A resolver leaves when it finds the buffer empty and all requesters finished. -/
theorem ResolverMove.leaving {env : Env Line} {s s' : State Line m n} {j : Fin n}
    (h : ResolverMove env s j s') (hleaving : (s'.resolver j).pc.leaving = true) :
    (s.resolver j).pc.leaving = true ∨ s.currentPosition = 0 ∧ s.threadsFinished = m := by
  cases h with
  | leave _ _ hempty hfinished => exact Or.inr ⟨hempty, hfinished⟩
  | exit hpc => simp [ResolverPc.leaving, hpc]
  | take | takeWoken =>
      rcases pop_pc { s with bufferLock := some (.resolver j) } j with hstay | ⟨_, hgone⟩
      · exact Or.inl (by simpa [hstay] using hleaving)
      · simp [hgone, ResolverPc.leaving] at hleaving
  | _ => simp [ResolverPc.leaving] at hleaving

/-! ### Every run -/

theorem State.Orderly.threadsFinished_eq_iff {s : State Line m n} (h : s.Orderly) :
    s.threadsFinished = m ↔ ∀ i, (s.requester i).pc.counted = true := by
  rw [h.counted, ← sum_toNat_eq_card_iff, Fintype.card_fin]

/-- Steps that only wake threads leave the bookkeeping as it is. -/
theorem State.Orderly.of_woken {s s' : State Line m n} (h : s.Orderly)
    (hfiles : s'.files = s.files) (hcount : s'.threadsFinished = s.threadsFinished)
    (hrequesters : ∀ i, (s.requester i).Woken (s'.requester i))
    (hleft : ∀ j, (s'.resolver j).pc.leaving = true →
      (s.resolver j).pc.leaving = true ∨ s.threadsFinished = m) : s'.Orderly where
  placed i := (hrequesters i).placed (h.placed i)
  counted := by
    rw [hcount, h.counted]
    exact Finset.sum_congr rfl fun i _ => by rw [(hrequesters i).counted_eq]
  serviced i hfinishing := by
    rw [hfiles]
    exact h.serviced i ((hrequesters i).finishing_eq ▸ hfinishing)
  left j hleaving := by
    rw [hcount]
    exact (hleft j hleaving).elim (h.left j) id

theorem RequesterMove.orderly {env : Env Line} {s s' : State Line m n} {i : Fin m}
    (h : RequesterMove env s i s') (horderly : s.Orderly) : s'.Orderly where
  placed i' := by
    by_cases hi : i' = i
    · exact hi ▸ h.placed (horderly.placed i)
    · rw [h.others hi]
      exact horderly.placed i'
  counted := by
    have hmove := h.counted (horderly.placed i)
    have hsum := sum_move (f := fun i => (s.requester i).pc.counted.toNat)
      (g := fun i => (s'.requester i).pc.counted.toNat) i fun i' hne => by rw [h.others hne]
    have := horderly.counted
    omega
  serviced i' hfinishing := by
    have hall : ∀ file ∈ s.files, file.serviced = true := by
      by_cases hi : i' = i
      · subst hi
        rcases h.finishing (horderly.placed i') hfinishing with hbefore | hscan
        · exact horderly.serviced i' hbefore
        · exact scan_finished hscan
      · rw [h.others hi] at hfinishing
        exact horderly.serviced i' hfinishing
    rcases h.files with hfiles | ⟨index, hfiles⟩
    · exact hfiles ▸ hall
    · exact hfiles ▸ markServiced_serviced hall
  left j hleaving := by
    rw [(h.resolvers j).leaving_eq] at hleaving
    have hall := (horderly.threadsFinished_eq_iff).mp (horderly.left j hleaving)
    have hmove := h.counted (horderly.placed i)
    rw [hall i, h.stays_counted (hall i)] at hmove
    exact (Nat.add_right_cancel hmove).trans (horderly.left j hleaving)

theorem step_orderly {env : Env Line} {s s' : State Line m n} {a : Action m n}
    (h : step env s a = some s') (horderly : s.Orderly) : s'.Orderly := by
  cases (step_cases h).2 with
  | requester _ _ _ hmove => exact hmove.orderly horderly
  | resolver j _ _ hmove =>
      apply horderly.of_woken hmove.files hmove.threadsFinished hmove.requesters
      intro j' hleaving
      by_cases hj : j' = j
      · subst hj
        exact (hmove.leaving hleaving).imp_right And.right
      · exact Or.inl (hmove.others hj ▸ hleaving)
  | spuriousRequester i input hwaiting =>
      exact horderly.of_woken rfl rfl (SignalsIsFull.woken i input hwaiting).woken_requester
        fun _ => Or.inl
  | spuriousResolver j hwaiting =>
      refine horderly.of_woken rfl rfl (fun _ => Or.inl rfl) fun j' hleaving => Or.inl ?_
      exact ((SignalsIsEmpty.woken j hwaiting).woken_resolver j').leaving_eq ▸ hleaving

theorem orderly {args : Args Line}
    {s : State Line args.requesterThreadsCount args.resolverThreadCount}
    (h : Reachable args s) : s.Orderly := by
  refine h.invariant State.Orderly ⟨?_, ?_, ?_, ?_⟩ fun s a s' horderly _ hstep =>
    step_orderly hstep horderly
  · intro i
    simp [start, Requester.Placed, Stream.isOpen]
  · simp [start, RequesterPc.counted]
  · intro i hfinishing
    simp [start, RequesterPc.finishing] at hfinishing
  · intro j hleaving
    simp [start, ResolverPc.leaving] at hleaving

end OperatingSystems.Lookup
