import DesignMetrics.Proofs.Engine.Pool

/-!
# Scheduling never shows

The settings and the schedule decide which actions happen and when, and neither shows in the outcome
of a run: it is that of one stage after the other, with the fault of the first stage that fails in
pipeline order. The groups are kept apart on the way, since a group is submitted only when all
results of the one before it have been taken.
-/

namespace DesignMetrics

namespace PoolRun

/-- A worker has finished a stage, and it did not fail. -/
def HasSucceeded (c : Calculators) (m : CodeModel) (actions : List PoolAction)
    (stage : PooledStage) : Prop :=
  .finish stage ∈ actions ∧ (c.deliver m stage).fault? = none

variable {c : Calculators} {m : CodeModel} {workers : Nat} {actions : List PoolAction} {p : PoolRun}

theorem Progress.hasSucceeded {earlier : List (List PooledStage)} {front : List PooledStage}
    (h : Progress c m actions p earlier front) {stage : PooledStage}
    (hstage : stage ∈ earlier.flatten ++ front) : HasSucceeded c m actions stage :=
  ⟨h.finished stage (List.mem_append_left _ hstage),
    Calculators.delivers_of_collect h.collected stage hstage⟩

/-- Once a stage of the second group has been submitted, all of the first group have succeeded. -/
theorem Reached.entity_succeeded (h : Reached c m workers actions (.active p))
    {entry : PooledStage × StageStatus} (hentry : entry ∈ p.awaited)
    (hgraph : entry.1 ∈ PooledStage.graphGroup) :
    ∀ stage ∈ PooledStage.entityGroup, HasSucceeded c m actions stage := by
  intro stage hstage
  obtain ⟨earlier, front, hprogress⟩ := h.progress
  have hgroups := hprogress.groups
  cases earlier with
  | nil =>
    have hcurrent := (List.cons.inj hgroups).1
    have hentity : entry.1 ∈ PooledStage.entityGroup := by
      rw [← hcurrent]
      simp [List.mem_map_of_mem hentry]
    have hdisjoint : ∀ s ∈ PooledStage.entityGroup, s ∉ PooledStage.graphGroup := by decide
    exact absurd hgraph (hdisjoint entry.1 hentity)
  | cons group earlier =>
    have hgroup : group = PooledStage.entityGroup := (List.cons.inj hgroups).1
    exact hprogress.hasSucceeded (by simp [hgroup, hstage])

/-- When the summary comes next, all pooled stages have succeeded. -/
theorem Reached.all_succeeded (h : Reached c m workers actions (.active p)) (hp : p.Concludes)
    (stage : PooledStage) : HasSucceeded c m actions stage := by
  obtain ⟨earlier, front, hprogress⟩ := h.progress
  exact hprogress.hasSucceeded (hprogress.concludes hp ▸ stage.mem_pipeline)

end PoolRun

namespace Calculators

open PoolRun

variable (c : Calculators) (settings : EngineSettings) (m : CodeModel) (schedule : List PoolAction)

def opening (settings : EngineSettings) (m : CodeModel) : List LogEvent :=
  if settings.usePool m.codebase.types.length then
    [.poolUsed m.codebase.types.length settings.maxWorkers]
  else []

theorem workers_pos {settings : EngineSettings} {count : Int} (h : settings.usePool count) :
    0 < settings.maxWorkers.toNat := by
  simp only [EngineSettings.usePool, Bool.and_eq_true, decide_eq_true_eq] at h
  omega

theorem run_of_usePool (h : settings.usePool m.codebase.types.length) :
    c.run settings (some m) schedule =
      ⟨opening settings m ++ (c.runPooled m settings.maxWorkers.toNat schedule).log,
        (c.runPooled m settings.maxWorkers.toNat schedule).outcome⟩ := by
  rw [opening, if_pos h]
  show (if settings.usePool m.codebase.types.length then _ else _) = _
  rw [if_pos h]
  rfl

theorem run_of_not_usePool (h : ¬ settings.usePool m.codebase.types.length) :
    c.run settings (some m) schedule = c.runSequential m := by
  show (if settings.usePool m.codebase.types.length then _ else _) = _
  rw [if_neg h]

/-- The pooled run of a schedule is a run of possible actions. -/
theorem reached_runPooled {workers : Nat} (hworkers : 0 < workers) :
    ∃ actions, Reached c m workers actions (.ended (c.runPooled m workers schedule)) :=
  Reached.fresh.follow hworkers schedule

theorem outcome_run : (c.run settings (some m) schedule).outcome = (c.finale m).outcome := by
  by_cases h : settings.usePool m.codebase.types.length
  · obtain ⟨actions, hreached⟩ := c.reached_runPooled m schedule (workers_pos h)
    rw [c.run_of_usePool settings m schedule h]
    exact hreached.ended.1
  · rw [c.run_of_not_usePool settings m schedule h]
    exact c.outcome_runSequential m

theorem Tells.prepend {c : Calculators} {m : CodeModel} {log : List LogEvent}
    (h : c.Tells m [] log) (opening : List LogEvent) : c.Tells m opening (opening ++ log) := by
  obtain ⟨performed, hle, hprefix, hshuffle⟩ := h
  refine ⟨performed, hle, hprefix, ?_⟩
  simpa using (IsShuffle.of_reports opening).append hshuffle

theorem tells_run :
    c.Tells m (opening settings m) (c.run settings (some m) schedule).log := by
  by_cases h : settings.usePool m.codebase.types.length
  · obtain ⟨actions, hreached⟩ := c.reached_runPooled m schedule (workers_pos h)
    rw [c.run_of_usePool settings m schedule h]
    exact hreached.ended.2.prepend (opening settings m)
  · rw [c.run_of_not_usePool settings m schedule h, opening, if_neg h]
    exact c.tells_runSequential m

/-- Scheduling never shows in the outcome. A run fails exactly with the fault of the first stage
that fails, and tells of the stages ahead of it in pipeline order. On a pool, every run of possible
actions ends so; a stage of the second group is submitted only after all of the first group have
succeeded, and the summary comes only after all pooled stages have. -/
theorem run_schedule_invisible :
    (c.run settings (some m) schedule).outcome = (c.runSequential m).outcome ∧
    (c.run settings (some m) schedule).fault? = c.firstFault? m ∧
    c.Tells m (opening settings m) (c.run settings (some m) schedule).log ∧
    c.Tells m [] (c.runSequential m).log ∧
    (settings.usePool m.codebase.types.length → ∃ actions,
      Reached c m settings.maxWorkers.toNat actions
        (.ended (c.runPooled m settings.maxWorkers.toNat schedule))) ∧
    (∀ workers actions result, Reached c m workers actions (.ended result) →
      result.outcome = (c.runSequential m).outcome ∧ c.Tells m [] result.log) ∧
    (∀ workers actions p, Reached c m workers actions (.active p) →
      (∀ entry ∈ p.awaited, entry.1 ∈ PooledStage.graphGroup →
        ∀ stage ∈ PooledStage.entityGroup, HasSucceeded c m actions stage) ∧
      (p.Concludes → ∀ stage, HasSucceeded c m actions stage)) := by
  have houtcome := c.outcome_run settings m schedule
  refine ⟨houtcome.trans (c.outcome_runSequential m).symm, ?_, c.tells_run settings m schedule,
    c.tells_runSequential m, fun h => c.reached_runPooled m schedule (workers_pos h), ?_, ?_⟩
  · rw [← c.fault?_finale m, Recorded.fault?, Recorded.fault?, houtcome]
  · intro workers actions result hreached
    rw [c.outcome_runSequential m]
    exact hreached.ended
  · intro workers actions p hreached
    exact ⟨fun entry hentry hgraph => hreached.entity_succeeded hentry hgraph,
      hreached.all_succeeded⟩

end Calculators

end DesignMetrics
