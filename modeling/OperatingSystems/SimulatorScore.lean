import OperatingSystems.PagerLruProgress
import OperatingSystems.PagerPredict

/-!
The compute score does not depend on the pager. The queue holds the whole future of every job
before the first tick, and a job is finished when it has executed all of it; which slot it was in,
and when its pages came and went, is forgotten.
-/

namespace OperatingSystems.Simulator

variable {config : Config} {s s' : State}

/-- When the main loop has ended, every job of the queue has executed its whole course. -/
theorem mainLoop_ended {pager : Pager} {memory : pager.State} {fuel : Nat}
    (h : config.Reaches s) (hloop : mainLoop pager config.procs fuel (memory, s) = some s') :
    ∃ fuel jobs, initqueue config.table config.rand fuel = some jobs ∧
      ∀ k, (jobs k).Ended (s'.queue k) := by
  obtain ⟨n, rfl, hdone⟩ := mainLoop_eq_some hloop
  obtain ⟨fuel', jobs, hjobs, hsched⟩ := (h.ticks pager (memory, s) n).scheduled
  refine ⟨fuel', jobs, hjobs, fun k => ?_⟩
  obtain ⟨hk, hidle⟩ := hsched.idle_of_alldone config.procs_pos hdone k
  exact hsched.ended k hk hidle

/-- What a job has executed at its end is determined by how it was loaded. -/
theorem Process.Ended.unique {start q q' : Process} (h : start.Ended q) (h' : start.Ended q') :
    q.computed = q'.computed ∧ q.compute = q'.compute := by
  obtain ⟨n, hend, -, hcompute, hcomputed⟩ := h.ended
  obtain ⟨n', hend', -, hcompute', hcomputed'⟩ := h'.ended
  obtain rfl := hend.unique hend'
  exact ⟨hcomputed.trans hcomputed'.symm, hcompute.trans hcompute'.symm⟩

/-- The compute total that `allscore` prints is that of the compute ticks alone. -/
theorem allscore_compute (s : State) : (allscore s).2 =
    (List.finRange queueSize).foldl (fun total k => toInt (total + (s.queue k).compute)) 0 :=
  (List.foldl_hom Prod.snd fun _ _ => rfl).symm

/-- For a fixed table and random stream, any two runs of the main loop that end, with any pagers
and any numbers of slots, have executed the same instructions job by job, and score the same
number of compute cycles. -/
theorem score_independent_of_pager (config config' : Config) (htable : config.table = config'.table)
    (hrand : config.rand = config'.rand) (pager pager' : Pager) (s₀ s₀' s s' : State)
    (hstart : config.Starts s₀) (hstart' : config'.Starts s₀') (fuel fuel' : Nat)
    (hloop : mainLoop pager config.procs fuel (pager.init, s₀) = some s)
    (hloop' : mainLoop pager' config'.procs fuel' (pager'.init, s₀') = some s') :
    (∀ k, (s.queue k).computed = (s'.queue k).computed ∧
      (s.queue k).compute = (s'.queue k).compute) ∧ (allscore s).2 = (allscore s').2 := by
  obtain ⟨_, jobs, hjobs, hended⟩ := mainLoop_ended ⟨s₀, hstart, .refl⟩ hloop
  obtain ⟨_, jobs', hjobs', hended'⟩ := mainLoop_ended ⟨s₀', hstart', .refl⟩ hloop'
  rw [htable, hrand] at hjobs
  obtain rfl := initqueue_unique hjobs hjobs'
  have hsame := fun k => (hended k).unique (hended' k)
  refine ⟨hsame, ?_⟩
  rw [allscore_compute, allscore_compute]
  congr
  funext total k
  rw [(hsame k).2]

/-- The five programs in a single slot, on the same stream. -/
def singleSlotConfig : Config :=
  { alternatingConfig with procs := 1, procs_pos := le_rfl, procs_le := alternatingConfig.procs_pos }

theorem score_lru_eq_score_predict : ∃ s₀ s₀' fuel fuel' s s',
    mainLoop lru alternatingConfig.procs fuel (lru.init, s₀) = some s ∧
    mainLoop predict singleSlotConfig.procs fuel' (predict.init, s₀') = some s' ∧
    (allscore s).2 = (allscore s').2 := by
  obtain ⟨s₀, hstart⟩ := alternatingConfig_starts
  obtain ⟨s₀', hstart'⟩ : ∃ s, singleSlotConfig.Starts s := starts_of_alternating rfl rfl
  obtain ⟨fuel, s, hloop⟩ := (live_terminates rfl lru_live hstart).1
  obtain ⟨fuel', s', hloop'⟩ := (live_terminates rfl predict_live hstart').1
  exact ⟨s₀, s₀', fuel, fuel', s, s', hloop, hloop', (score_independent_of_pager alternatingConfig
    singleSlotConfig rfl rfl lru predict s₀ s₀' s s' hstart hstart' fuel fuel' hloop hloop').2⟩

end OperatingSystems.Simulator
