import OperatingSystems.LookupConservation

/-!
How the files are shared out. A file is claimed and marked under `file_lock` in one go, so the
claims of the requesters are at every moment the marked files, each once. A requester comes back to
the scan with empty hands, so when it reports it has stored all the lines of all its files, and the
log of the reports accounts for every file.
-/

namespace OperatingSystems.Lookup

open Threads

variable {Line : Type} {m n : Nat}

/-! ### Accounts -/

/-- The files that have been marked. -/
def servicedIndices (files : List File) : Finset Nat :=
  (Finset.range files.length).filter fun k => (files[k]?.any File.serviced) = true

/-- The lines that have come to a requester so far, in order. -/
def Requester.course (r : Requester Line) : List Line :=
  r.enqueued ++ r.pc.pending ++ r.currentFile.rest

/-- The lines that `fopen` gives access to for the file at an index. -/
def linesAt (env : Env Line) (filenames : List FileName) (index : Nat) : List Line :=
  ((filenames[index]?).bind fun filename => (env.file filename).fopenUpdate).getD []

/-- The accounts of the files: who has claimed which, what has come of them, and what the service
log says. -/
structure State.Accounted (env : Env Line) (filenames : List FileName) (s : State Line m n) :
    Prop where
  named : s.files.map File.filename = filenames
  claimed : ∑ i, ((s.requester i).claimed : Multiset Nat) = (servicedIndices s.files).val
  counts : ∀ i, (s.requester i).serviceCount = (s.requester i).claimed.length
  course : ∀ i, (s.requester i).course =
    (s.requester i).claimed.flatMap (linesAt env filenames)
  log_length : s.threadsFinished = s.serviceLog.length
  logged : ∀ i, (s.serviceLog.map Prod.fst).count i = (s.requester i).pc.counted.toNat
  log_sum : (s.serviceLog.map Prod.snd).sum =
    ∑ i, if (s.requester i).pc.counted then (s.requester i).claimed.length else 0

/-! ### Marking a file -/

theorem getElem?_markServiced (files : List File) (index k : Nat) :
    (markServiced files index)[k]? =
      if index = k then files[k]?.map fun file => { file with serviced := true }
      else files[k]? := by
  rw [markServiced, List.getElem?_modify]
  split
  · rfl
  · exact Option.map_id'

theorem servicedIndices_markServiced {files : List File} {index : Nat} {file : File}
    (hget : files[index]? = some file) :
    servicedIndices (markServiced files index) = insert index (servicedIndices files) := by
  have hlt := (List.getElem?_eq_some_iff.mp hget).1
  ext k
  simp only [servicedIndices, Finset.mem_insert, Finset.mem_filter, Finset.mem_range,
    getElem?_markServiced]
  rw [markServiced, List.length_modify]
  by_cases hk : index = k
  · subst hk
    rw [if_pos rfl, hget]
    simpa using hlt
  · rw [if_neg hk, or_iff_right (Ne.symm hk)]

theorem notMem_servicedIndices {files : List File} {index : Nat} {file : File}
    (hget : files[index]? = some file) (hserviced : file.serviced = false) :
    index ∉ servicedIndices files := by
  rw [servicedIndices, Finset.mem_filter, hget]
  simp [hserviced]

/-- Once every file is marked, the marked files are all the files. -/
theorem servicedIndices_of_all {files : List File} (h : ∀ file ∈ files, file.serviced = true) :
    servicedIndices files = Finset.range files.length := by
  apply Finset.filter_true_of_mem
  intro k hk
  rw [Finset.mem_range] at hk
  rw [List.getElem?_eq_getElem hk]
  exact h _ (List.getElem_mem hk)

theorem filenames_markServiced (files : List File) (index : Nat) :
    (markServiced files index).map File.filename = files.map File.filename := by
  apply List.ext_getElem?
  intro k
  rw [List.getElem?_map, List.getElem?_map, getElem?_markServiced]
  split
  · rw [Option.map_map]
    rfl
  · rfl

theorem openFile_rest_eq (env : Env Line) (files : List File) (index : Nat) :
    (openFile env files index).rest = linesAt env (files.map File.filename) index := by
  rw [openFile, linesAt, List.getElem?_map]
  cases files[index]? with
  | none => rfl
  | some file =>
      rw [Option.bind_some, Option.map_some, Option.bind_some]
      cases (env.file file.filename).fopenUpdate <;> rfl

/-! ### One step -/

/-- What a requester's move does to the accounts: nothing, a claim, or the report. -/
inductive RequesterAccount (env : Env Line) (s : State Line m n) (i : Fin m)
    (s' : State Line m n) : Prop where
  | quiet (hfiles : s'.files = s.files) (hlog : s'.serviceLog = s.serviceLog)
      (hfinished : s'.threadsFinished = s.threadsFinished)
      (hclaimed : (s'.requester i).claimed = (s.requester i).claimed)
      (hcount : (s'.requester i).serviceCount = (s.requester i).serviceCount)
      (hcourse : (s'.requester i).course = (s.requester i).course)
      (hcounted : (s'.requester i).pc.counted = (s.requester i).pc.counted)
  | claim (index : Nat) (file : File) (hget : s.files[index]? = some file)
      (hserviced : file.serviced = false) (hfiles : s'.files = markServiced s.files index)
      (hlog : s'.serviceLog = s.serviceLog) (hfinished : s'.threadsFinished = s.threadsFinished)
      (hclaimed : (s'.requester i).claimed = (s.requester i).claimed ++ [index])
      (hcount : (s'.requester i).serviceCount = (s.requester i).serviceCount + 1)
      (hcourse : (s'.requester i).course =
        (s.requester i).course ++ (openFile env s.files index).rest)
      (hbefore : (s.requester i).pc.counted = false)
      (hafter : (s'.requester i).pc.counted = false)
  | report (hfiles : s'.files = s.files)
      (hlog : s'.serviceLog = s.serviceLog ++ [(i, (s.requester i).serviceCount)])
      (hfinished : s'.threadsFinished = s.threadsFinished + 1)
      (hclaimed : (s'.requester i).claimed = (s.requester i).claimed)
      (hcount : (s'.requester i).serviceCount = (s.requester i).serviceCount)
      (hcourse : (s'.requester i).course = (s.requester i).course)
      (hbefore : (s.requester i).pc.counted = false)
      (hafter : (s'.requester i).pc.counted = true)
      (hstored : (s.requester i).course = (s.requester i).enqueued)

@[simp] theorem setRequester_serviceLog (s : State Line m n) (i : Fin m) (r : Requester Line) :
    (s.setRequester i r).serviceLog = s.serviceLog := rfl

@[simp] theorem enqueue_serviceLog (s : State Line m n) (i : Fin m) (r : Requester Line)
    (input : Line) : (s.enqueue i r input).serviceLog = s.serviceLog := rfl

@[simp] theorem enqueue_threadsFinished (s : State Line m n) (i : Fin m) (r : Requester Line)
    (input : Line) : (s.enqueue i r input).threadsFinished = s.threadsFinished := rfl

theorem RequesterMove.account {env : Env Line} {s s' : State Line m n} {i : Fin m}
    (h : RequesterMove env s i s') (hplaced : (s.requester i).Placed) :
    RequesterAccount env s i s' := by
  cases h with
  | badStream => exact .quiet rfl rfl rfl rfl rfl rfl rfl
  | claim index hpc hlock hscan =>
      obtain ⟨file, -, hget, hserviced⟩ := scan_found hscan
      rw [Nat.sub_zero] at hget
      rw [Requester.Placed, hpc] at hplaced
      have hrest := Stream.rest_of_not_open hplaced.2
      exact .claim index file hget hserviced rfl rfl rfl (by simp) (by simp)
        (by simp [Requester.course, RequesterPc.pending, hpc, hrest])
        (by simp [hpc, RequesterPc.counted]) (by simp [RequesterPc.counted])
  | report hpc hlock =>
      rw [Requester.Placed, hpc] at hplaced
      have hrest := Stream.rest_of_not_open hplaced
      exact .report rfl rfl rfl (by simp) (by simp)
        (by simp [Requester.course, RequesterPc.pending, hpc])
        (by simp [hpc, RequesterPc.counted]) (by simp [RequesterPc.counted])
        (by simp [Requester.course, RequesterPc.pending, hpc, hrest])
  | signalFull _ _ hpc hsignal | signalDone _ hpc hsignal =>
      obtain ⟨resolver, rfl⟩ := hsignal.frame
      apply RequesterAccount.quiet <;>
        simp [Requester.course, RequesterPc.pending, RequesterPc.counted, hpc]
  | closeFile hpc =>
      rw [Requester.Placed, hpc] at hplaced
      have hrest : (s.requester i).currentFile.rest = [] := hplaced.2
      apply RequesterAccount.quiet <;>
        simp [Requester.course, RequesterPc.pending, RequesterPc.counted, hpc, hplaced.1, hrest]
  | readFull index input rest hpc hfile | readStore index input rest hpc hfile =>
      apply RequesterAccount.quiet <;>
        simp [Requester.course, RequesterPc.pending, RequesterPc.counted, hpc, hfile]
  | relockStore input hpc =>
      apply RequesterAccount.quiet <;>
        simp [Requester.course, RequesterPc.pending, RequesterPc.counted, hpc]
  | broadcast hpc =>
      apply RequesterAccount.quiet <;>
        simp [Requester.course, RequesterPc.pending, RequesterPc.counted, State.broadcastIsEmpty,
          hpc]
  | finish hpc | noFiles hpc | unlockService hpc | exit hpc | unlockFiles hpc | lockBuffer hpc
  | endOfFile _ hpc | wait _ hpc | relockFull _ hpc =>
      apply RequesterAccount.quiet <;>
        simp [Requester.course, RequesterPc.pending, RequesterPc.counted, hpc]

theorem Requester.Woken.account_eq {r r' : Requester Line} (h : r.Woken r') :
    r'.claimed = r.claimed ∧ r'.serviceCount = r.serviceCount ∧ r'.course = r.course := by
  rcases h with rfl | ⟨input, hpc, rfl⟩
  · exact ⟨rfl, rfl, rfl⟩
  · simp [Requester.course, RequesterPc.pending, hpc]

theorem ResolverMove.serviceLog {env : Env Line} {s s' : State Line m n} {j : Fin n}
    (h : ResolverMove env s j s') : s'.serviceLog = s.serviceLog := by
  cases h with
  | signal _ _ hsignal =>
      obtain ⟨requester, rfl⟩ := hsignal.frame
      rfl
  | take | takeWoken =>
      obtain ⟨resolver, fault, hpop⟩ :=
        pop_frame { s with bufferLock := some (.resolver j) } j (s.resolver j)
      rw [hpop]
  | _ => rfl

/-! ### Keeping the accounts -/

section Keeping

variable {env : Env Line} {filenames : List FileName} {s s' : State Line m n}

theorem State.Accounted.congr (h : s.Accounted env filenames) (hfiles : s'.files = s.files)
    (hlog : s'.serviceLog = s.serviceLog) (hfinished : s'.threadsFinished = s.threadsFinished)
    (hclaimed : ∀ i, (s'.requester i).claimed = (s.requester i).claimed)
    (hcount : ∀ i, (s'.requester i).serviceCount = (s.requester i).serviceCount)
    (hcourse : ∀ i, (s'.requester i).course = (s.requester i).course)
    (hcounted : ∀ i, (s'.requester i).pc.counted = (s.requester i).pc.counted) :
    s'.Accounted env filenames where
  named := hfiles ▸ h.named
  claimed := by
    simp only [hclaimed, hfiles]
    exact h.claimed
  counts i := by rw [hcount, hclaimed, h.counts]
  course i := by rw [hcourse, hclaimed, h.course]
  log_length := by rw [hfinished, hlog, h.log_length]
  logged i := by rw [hlog, hcounted, h.logged]
  log_sum := by
    simp only [hclaimed, hcounted, hlog]
    exact h.log_sum

theorem State.Accounted.of_woken (h : s.Accounted env filenames) (hfiles : s'.files = s.files)
    (hlog : s'.serviceLog = s.serviceLog) (hfinished : s'.threadsFinished = s.threadsFinished)
    (hrequesters : ∀ i, (s.requester i).Woken (s'.requester i)) :
    s'.Accounted env filenames :=
  h.congr hfiles hlog hfinished (fun i => (hrequesters i).account_eq.1)
    (fun i => (hrequesters i).account_eq.2.1) (fun i => (hrequesters i).account_eq.2.2)
    fun i => (hrequesters i).counted_eq

/-- What a claim adds to the marked files it adds to the claims of one requester. -/
theorem State.Accounted.of_claim {i : Fin m} {index : Nat} {file : File}
    (h : s.Accounted env filenames)
    (hothers : ∀ i', i' ≠ i → s'.requester i' = s.requester i')
    (hget : s.files[index]? = some file) (hserviced : file.serviced = false)
    (hfiles : s'.files = markServiced s.files index) (hlog : s'.serviceLog = s.serviceLog)
    (hfinished : s'.threadsFinished = s.threadsFinished)
    (hclaimed : (s'.requester i).claimed = (s.requester i).claimed ++ [index])
    (hcount : (s'.requester i).serviceCount = (s.requester i).serviceCount + 1)
    (hcourse : (s'.requester i).course =
      (s.requester i).course ++ (openFile env s.files index).rest)
    (hbefore : (s.requester i).pc.counted = false)
    (hafter : (s'.requester i).pc.counted = false) : s'.Accounted env filenames where
  named := by rw [hfiles, filenames_markServiced, h.named]
  claimed := by
    have hmove := sum_move (f := fun i => ((s.requester i).claimed : Multiset Nat))
      (g := fun i => ((s'.requester i).claimed : Multiset Nat)) i
      fun i' hne => by rw [hothers i' hne]
    have hindex := notMem_servicedIndices hget hserviced
    rw [hclaimed, ← Multiset.coe_add, h.claimed, Multiset.coe_singleton] at hmove
    apply add_right_cancel (b := ((s.requester i).claimed : Multiset Nat))
    rw [hmove, hfiles, servicedIndices_markServiced hget, Finset.insert_val_of_notMem hindex,
      ← Multiset.singleton_add]
    abel
  counts i' := by
    by_cases hi : i' = i
    · subst hi
      rw [hcount, hclaimed, h.counts, List.length_append, List.length_singleton]
    · rw [hothers i' hi, h.counts]
  course i' := by
    by_cases hi : i' = i
    · subst hi
      rw [hcourse, hclaimed, h.course, openFile_rest_eq, h.named, List.flatMap_append,
        List.flatMap_singleton]
    · rw [hothers i' hi, h.course]
  log_length := by rw [hfinished, hlog, h.log_length]
  logged i' := by
    by_cases hi : i' = i
    · subst hi
      rw [hlog, hafter, h.logged, hbefore]
    · rw [hothers i' hi, hlog, h.logged]
  log_sum := by
    rw [hlog, h.log_sum]
    apply Finset.sum_congr rfl
    intro i' _
    by_cases hi : i' = i
    · subst hi
      rw [hbefore, hafter]
      rfl
    · rw [hothers i' hi]

/-- A report adds one entry to the log, for a requester that had none. -/
theorem State.Accounted.of_report {i : Fin m} (h : s.Accounted env filenames)
    (hothers : ∀ i', i' ≠ i → s'.requester i' = s.requester i') (hfiles : s'.files = s.files)
    (hlog : s'.serviceLog = s.serviceLog ++ [(i, (s.requester i).serviceCount)])
    (hfinished : s'.threadsFinished = s.threadsFinished + 1)
    (hclaimed : (s'.requester i).claimed = (s.requester i).claimed)
    (hcount : (s'.requester i).serviceCount = (s.requester i).serviceCount)
    (hcourse : (s'.requester i).course = (s.requester i).course)
    (hbefore : (s.requester i).pc.counted = false)
    (hafter : (s'.requester i).pc.counted = true) : s'.Accounted env filenames where
  named := hfiles ▸ h.named
  claimed := by
    rw [hfiles, ← h.claimed]
    apply Finset.sum_congr rfl
    intro i' _
    by_cases hi : i' = i
    · subst hi
      rw [hclaimed]
    · rw [hothers i' hi]
  counts i' := by
    by_cases hi : i' = i
    · subst hi
      rw [hcount, hclaimed, h.counts]
    · rw [hothers i' hi, h.counts]
  course i' := by
    by_cases hi : i' = i
    · subst hi
      rw [hcourse, hclaimed, h.course]
    · rw [hothers i' hi, h.course]
  log_length := by rw [hfinished, hlog, h.log_length, List.length_append, List.length_singleton]
  logged i' := by
    rw [hlog, List.map_append, List.count_append, h.logged]
    by_cases hi : i' = i
    · subst hi
      rw [hbefore, hafter]
      simp
    · rw [hothers i' hi]
      simp [Ne.symm hi]
  log_sum := by
    have hmove := sum_move
      (f := fun i => if (s.requester i).pc.counted then (s.requester i).claimed.length else 0)
      (g := fun i => if (s'.requester i).pc.counted then (s'.requester i).claimed.length else 0)
      i fun i' hne => by rw [hothers i' hne]
    rw [hlog, List.map_append, List.sum_append, h.log_sum, h.counts]
    simp only [hbefore, hafter, hclaimed, if_true, Bool.false_eq_true, if_false] at hmove
    simpa using hmove.symm

theorem RequesterAccount.accounted {i : Fin m} (h : RequesterAccount env s i s')
    (hothers : ∀ i', i' ≠ i → s'.requester i' = s.requester i')
    (haccounted : s.Accounted env filenames) : s'.Accounted env filenames := by
  cases h with
  | quiet hfiles hlog hfinished hclaimed hcount hcourse hcounted =>
      have hsame : ∀ {α : Type} (f : Requester Line → α),
          f (s'.requester i) = f (s.requester i) →
            ∀ i', f (s'.requester i') = f (s.requester i') := by
        intro α f hf i'
        by_cases hi : i' = i
        · exact hi ▸ hf
        · rw [hothers i' hi]
      exact haccounted.congr hfiles hlog hfinished (hsame _ hclaimed) (hsame _ hcount)
        (hsame _ hcourse) (hsame (fun r => r.pc.counted) hcounted)
  | claim index file hget hserviced hfiles hlog hfinished hclaimed hcount hcourse hbefore hafter =>
      exact haccounted.of_claim hothers hget hserviced hfiles hlog hfinished hclaimed hcount
        hcourse hbefore hafter
  | report hfiles hlog hfinished hclaimed hcount hcourse hbefore hafter =>
      exact haccounted.of_report hothers hfiles hlog hfinished hclaimed hcount hcourse hbefore
        hafter

theorem step_accounted {a : Action m n} (h : step env s a = some s') (horderly : s.Orderly)
    (haccounted : s.Accounted env filenames) : s'.Accounted env filenames := by
  cases (step_cases h).2 with
  | requester i _ _ hmove =>
      exact (hmove.account (horderly.placed i)).accounted (fun _ => hmove.others) haccounted
  | resolver _ _ _ hmove =>
      exact haccounted.of_woken hmove.files hmove.serviceLog hmove.threadsFinished
        hmove.requesters
  | spuriousRequester i input hwaiting =>
      exact haccounted.of_woken rfl rfl rfl
        (SignalsIsFull.woken i input hwaiting).woken_requester
  | spuriousResolver => exact haccounted.of_woken rfl rfl rfl fun _ => Or.inl rfl

end Keeping

/-! ### Every run -/

variable {args : Args Line} {s : State Line args.requesterThreadsCount args.resolverThreadCount}

theorem start_accounted : (start args).Accounted args.env args.validFiles where
  named := by simp [start, Function.comp_def]
  claimed := by
    have hnone : servicedIndices (start args).files = ∅ := by
      apply Finset.filter_false_of_mem
      intro k hk
      simp only [start, List.getElem?_map]
      cases args.validFiles[k]? <;> exact Bool.false_ne_true
    rw [hnone]
    simp [start]
  counts i := rfl
  course i := rfl
  log_length := rfl
  logged i := rfl
  log_sum := by simp [start, RequesterPc.counted]

theorem accounted (h : Reachable args s) : s.Accounted args.env args.validFiles :=
  h.invariant_of State.Orderly _ (fun _ => orderly) start_accounted
    fun _ _ _ horderly haccounted _ hstep => step_accounted hstep horderly haccounted

theorem claimed_nodup {env : Env Line} {filenames : List FileName} {s : State Line m n}
    (h : s.Accounted env filenames) (i : Fin m) : (s.requester i).claimed.Nodup := by
  rw [← Multiset.coe_nodup]
  apply Multiset.nodup_of_le _ (servicedIndices s.files).nodup
  rw [← h.claimed]
  exact Finset.single_le_sum (f := fun i => ((s.requester i).claimed : Multiset Nat))
    (fun _ _ => Multiset.zero_le _) (Finset.mem_univ i)

theorem claimed_disjoint {env : Env Line} {filenames : List FileName} {s : State Line m n}
    (h : s.Accounted env filenames) {i i' : Fin m} (hne : i ≠ i') :
    List.Disjoint (s.requester i).claimed (s.requester i').claimed := by
  have hpair : ((s.requester i).claimed : Multiset Nat) + (s.requester i').claimed ≤
      (servicedIndices s.files).val := by
    rw [← h.claimed, ← Finset.sum_pair (f := fun i => ((s.requester i).claimed : Multiset Nat)) hne]
    exact Finset.sum_le_sum_of_subset (Finset.subset_univ _)
  have hnodup := Multiset.nodup_of_le hpair (servicedIndices s.files).nodup
  rw [Multiset.coe_add, Multiset.coe_nodup, List.nodup_append'] at hnodup
  exact hnodup.2.2

theorem claimed_lt {env : Env Line} {filenames : List FileName} {s : State Line m n}
    (h : s.Accounted env filenames) {i : Fin m} {k : Nat} (hk : k ∈ (s.requester i).claimed) :
    k < filenames.length := by
  have hle : ((s.requester i).claimed : Multiset Nat) ≤ (servicedIndices s.files).val := by
    rw [← h.claimed]
    exact Finset.single_le_sum (f := fun i => ((s.requester i).claimed : Multiset Nat))
      (fun _ _ => Multiset.zero_le _) (Finset.mem_univ i)
  have hmem : k ∈ servicedIndices s.files := Multiset.mem_of_le hle hk
  rw [servicedIndices, Finset.mem_filter, Finset.mem_range] at hmem
  rw [← h.named, List.length_map]
  exact hmem.1

/-- A requester that has reported has stored all the lines of all its files. -/
theorem enqueued_of_counted {env : Env Line} {filenames : List FileName} {s : State Line m n}
    (h : s.Accounted env filenames) (horderly : s.Orderly) {i : Fin m}
    (hcounted : (s.requester i).pc.counted = true) :
    (s.requester i).enqueued = (s.requester i).claimed.flatMap (linesAt env filenames) := by
  obtain ⟨hclosed, hpending⟩ := Requester.empty_of_counted (horderly.placed i) hcounted
  rw [← h.course, Requester.course, hclosed, hpending, List.append_nil, List.append_nil]

theorem RequesterPc.counted_of_hasExited {pc : RequesterPc Line} (h : pc.hasExited = true) :
    pc.counted = true := by
  cases pc <;> simp_all [RequesterPc.hasExited, RequesterPc.counted]

/-- The requesters in the log are those that have reported. -/
theorem enqueued_of_logged {env : Env Line} {filenames : List FileName} {s : State Line m n}
    (h : s.Accounted env filenames) (horderly : s.Orderly) {i : Fin m}
    (hlogged : i ∈ s.serviceLog.map Prod.fst) :
    (s.requester i).enqueued = (s.requester i).claimed.flatMap (linesAt env filenames) := by
  apply enqueued_of_counted h horderly
  have hpos := List.count_pos_iff.mpr hlogged
  rw [h.logged] at hpos
  cases hcounted : (s.requester i).pc.counted with
  | true => rfl
  | false =>
      rw [hcounted] at hpos
      exact absurd hpos (by decide)

/-- The count of finished threads goes up with a report, by one, and the reporting requester has
stored all its lines. -/
theorem report_of_step {env : Env Line} {filenames : List FileName} {s s' : State Line m n}
    (h : s.Accounted env filenames) (horderly : s.Orderly) {a : Action m n}
    (hstep : step env s a = some s') (hchanged : s'.threadsFinished ≠ s.threadsFinished) :
    ∃ i woken, a = .requester i woken ∧ s'.threadsFinished = s.threadsFinished + 1 ∧
      s'.serviceLog = s.serviceLog ++ [(i, (s.requester i).claimed.length)] ∧
      (s.requester i).enqueued = (s.requester i).claimed.flatMap (linesAt env filenames) := by
  cases (step_cases hstep).2 with
  | requester i woken _ hmove =>
      cases hmove.account (horderly.placed i) with
      | quiet _ _ hfinished => exact absurd hfinished hchanged
      | claim _ _ _ _ _ _ hfinished => exact absurd hfinished hchanged
      | report _ hlog hfinished _ _ _ _ _ hstored =>
          refine ⟨i, woken, rfl, hfinished, ?_, ?_⟩
          · rw [hlog, h.counts]
          · rw [← hstored, h.course]
  | resolver _ _ _ hmove => exact absurd hmove.threadsFinished hchanged
  | spuriousRequester | spuriousResolver => exact absurd rfl hchanged

/-- When all files are serviced and all requesters have reported, the reported counts add up. -/
theorem log_sum_of_counted {env : Env Line} {filenames : List FileName} {s : State Line m n}
    (h : s.Accounted env filenames) (hserviced : ∀ file ∈ s.files, file.serviced = true)
    (hall : ∀ i, (s.requester i).pc.counted = true) :
    (s.serviceLog.map Prod.snd).sum = filenames.length := by
  have hcard := congrArg Multiset.card h.claimed
  rw [Multiset.card_sum, servicedIndices_of_all hserviced, Finset.card_val, Finset.card_range,
    ← List.length_map File.filename, h.named] at hcard
  rw [h.log_sum, ← hcard]
  apply Finset.sum_congr rfl
  intro i _
  rw [if_pos (hall i), Multiset.coe_card]

/-- **Every file is claimed once and accounted for.** Whatever the threads, the files and the order
of steps: no two requesters claim the same file, each reports at most once and with all the lines
of its files stored, and once all have exited every file is serviced, every requester has reported
exactly once, and the reported counts add up to the number of files. -/
theorem files_claimed_once (h : Reachable args s) :
    (∀ i, (s.requester i).claimed.Nodup ∧
      ∀ k ∈ (s.requester i).claimed, k < args.validFiles.length) ∧
    (∀ i i', i ≠ i' → List.Disjoint (s.requester i).claimed (s.requester i').claimed) ∧
    s.threadsFinished = s.serviceLog.length ∧
    (s.serviceLog.map Prod.fst).Nodup ∧
    (∀ a s', step args.env s a = some s' → s'.threadsFinished ≠ s.threadsFinished →
      ∃ i woken, a = .requester i woken ∧ s'.threadsFinished = s.threadsFinished + 1 ∧
        s'.serviceLog = s.serviceLog ++ [(i, (s.requester i).claimed.length)] ∧
        (s.requester i).enqueued =
          (s.requester i).claimed.flatMap (linesAt args.env args.validFiles)) ∧
    (∀ i, i ∈ s.serviceLog.map Prod.fst → (s.requester i).enqueued =
      (s.requester i).claimed.flatMap (linesAt args.env args.validFiles)) ∧
    (∀ i, (s.requester i).pc.hasExited = true → (s.serviceLog.map Prod.fst).count i = 1) ∧
    ((∀ i, (s.requester i).pc.hasExited = true) →
      s.files.map File.filename = args.validFiles ∧ (∀ file ∈ s.files, file.serviced = true) ∧
      s.threadsFinished = args.requesterThreadsCount ∧
      (s.serviceLog.map Prod.snd).sum = args.validFiles.length) := by
  have haccounted := accounted h
  have horderly := orderly h
  refine ⟨fun i => ⟨claimed_nodup haccounted i, fun k => claimed_lt haccounted⟩,
    fun i i' => claimed_disjoint haccounted, haccounted.log_length, ?_,
    fun a s' => report_of_step haccounted horderly,
    fun i => enqueued_of_logged haccounted horderly, ?_, ?_⟩
  · rw [List.nodup_iff_count_le_one]
    intro i
    rw [haccounted.logged]
    exact Bool.toNat_le _
  · intro i hexited
    rw [haccounted.logged, RequesterPc.counted_of_hasExited hexited]
    rfl
  · intro hall
    have hcounted := fun i => RequesterPc.counted_of_hasExited (hall i)
    have hserviced := horderly.serviced ⟨0, args.requesters_pos⟩
      (RequesterPc.finishing_of_counted (hcounted _))
    exact ⟨haccounted.named, hserviced, horderly.threadsFinished_eq_iff.mpr hcounted,
      log_sum_of_counted haccounted hserviced hcounted⟩

theorem oneAfterOther_claims :
    ∃ s, Runs.exec (step oneEach.env) (start oneEach) oneAfterOther = some s ∧
      (s.serviceLog.map Prod.snd).sum = oneEach.validFiles.length := by
  have hrun : (Runs.exec (step oneEach.env) (start oneEach) oneAfterOther).map
      (fun s => (s.requester (0 : Fin 1)).pc.hasExited) = some true := by decide
  obtain ⟨s, hexec, hend⟩ := Option.map_eq_some_iff.mp hrun
  have hall : ∀ i : Fin oneEach.requesterThreadsCount, (s.requester i).pc.hasExited = true := by
    intro i
    obtain rfl : i = (0 : Fin 1) := Subsingleton.elim (α := Fin 1) _ _
    exact hend
  have hclaimed := files_claimed_once (Runs.reachable_of_exec hexec)
  exact ⟨s, hexec, (hclaimed.2.2.2.2.2.2.2 hall).2.2.2⟩

end OperatingSystems.Lookup
