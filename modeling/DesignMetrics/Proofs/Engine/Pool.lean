import Mathlib.Data.List.TakeWhile
import DesignMetrics.Proofs.Engine.Pipeline

/-!
# What all schedules have in common

A run on a pool is followed action by action. At any time the taken stages are a front part of the
pipeline, made of whole groups and of the front of the current one, and all of them have delivered;
what the workers do changes the order of the reports only. A fault is raised where the first stage
that fails stands in the pipeline, whenever that stage failed in time. So a run ends as the pipeline
does, whatever the schedule.
-/

namespace DesignMetrics

namespace PoolRun

variable {c : Calculators} {m : CodeModel} {workers : Nat}

/-- What some actions lead to, all of which are possible when they happen. -/
inductive Reached (c : Calculators) (m : CodeModel) (workers : Nat) :
    List PoolAction → PoolState → Prop where
  | fresh : Reached c m workers [] (.active fresh)
  | act {actions : List PoolAction} {p : PoolRun} {action : PoolAction} {state : PoolState}
      (hreached : Reached c m workers actions (.active p))
      (hact : p.act? c m workers action = some state) :
      Reached c m workers (actions ++ [action]) state

/-- Everything has been taken, so that the summary comes next. -/
structure Concludes (p : PoolRun) : Prop where
  not_raised : p.raised = none
  nothing_unsubmitted : p.unsubmitted = []
  nothing_awaited : p.awaited = []
  nothing_later : p.later = []

theorem act?_proceed {p : PoolRun} {state : PoolState} :
    p.act? c m workers .proceed = some state ↔ p.turn c m = .moves state := by
  unfold act?
  cases p.turn c m <;> simp

/-! ## Status changes -/

theorem map_fst_move (stage : PooledStage) (source target : StageStatus)
    (awaited : List (PooledStage × StageStatus)) :
    (move stage source target awaited).map (·.1) = awaited.map (·.1) := by
  induction awaited with
  | nil => rfl
  | cons entry rest ih =>
    unfold move
    split
    · rename_i heq
      subst heq
      rfl
    · rw [List.map_cons, ih, List.map_cons]

def finishedStages (p : PoolRun) : List PooledStage :=
  (p.awaited.filter (·.2 = .finished)).map (·.1)

theorem filter_finished_start (stage : PooledStage) (awaited : List (PooledStage × StageStatus)) :
    (move stage .waiting .running awaited).filter (·.2 = .finished) =
      awaited.filter (·.2 = .finished) := by
  induction awaited with
  | nil => rfl
  | cons entry rest ih =>
    unfold move
    split
    · rename_i heq
      subst heq
      rfl
    · rw [List.filter_cons, List.filter_cons, ih]

theorem filter_finished_finish {stage : PooledStage} {awaited : List (PooledStage × StageStatus)}
    (hmem : (stage, .running) ∈ awaited) :
    ((move stage .running .finished awaited).filter (·.2 = .finished)).Perm
      ((stage, .finished) :: awaited.filter (·.2 = .finished)) := by
  induction awaited with
  | nil => simp at hmem
  | cons entry rest ih =>
    unfold move
    split
    · rename_i heq
      subst heq
      exact List.Perm.refl _
    · rename_i hne
      have hrest : (stage, .running) ∈ rest :=
        (List.mem_cons.1 hmem).resolve_left fun heq => hne heq.symm
      rw [List.filter_cons, List.filter_cons]
      split
      · exact ((ih hrest).cons entry).trans (List.Perm.swap _ _ _)
      · exact ih hrest

theorem finishedStages_start (p : PoolRun) (stage : PooledStage) :
    (p.start stage).finishedStages = p.finishedStages :=
  congrArg (List.map Prod.fst) (filter_finished_start stage p.awaited)

theorem finishedStages_finish {p : PoolRun} {stage : PooledStage}
    (hmem : (stage, .running) ∈ p.awaited) :
    (p.finish c m stage).finishedStages.Perm (stage :: p.finishedStages) :=
  (filter_finished_finish hmem).map Prod.fst

theorem finishedStages_submit (p : PoolRun) (stage : PooledStage) (rest : List PooledStage) :
    (p.submit stage rest).finishedStages = p.finishedStages := by
  simp [finishedStages, submit]

theorem finishedStages_of_all {p : PoolRun} (hall : ∀ entry ∈ p.awaited, entry.2 = .finished) :
    p.finishedStages = p.awaited.map (·.1) := by
  rw [finishedStages, List.filter_eq_self.2 fun entry hentry => by simpa using hall entry hentry]

/-! ## The invariant -/

/-- A run after some actions: the groups it has dealt with, and the stages taken of its current
group. -/
structure Progress (c : Calculators) (m : CodeModel) (actions : List PoolAction) (p : PoolRun)
    (earlier : List (List PooledStage)) (front : List PooledStage) : Prop where
  groups : earlier ++ (front ++ p.awaited.map (·.1) ++ p.unsubmitted) :: p.later =
    [PooledStage.entityGroup, PooledStage.graphGroup]
  collected : c.collect m (earlier.flatten ++ front) {} = .ok p.outputs
  finished : ∀ stage ∈ earlier.flatten ++ front ++ p.finishedStages, .finish stage ∈ actions
  shuffle : IsShuffle p.log ((earlier.flatten ++ front).map .stageDone)
    (c.reports m (earlier.flatten ++ front ++ p.finishedStages))
  raised : ∀ fault, p.raised = some fault → p.unsubmitted = [] ∧ ∃ stage rest,
    p.awaited.map (·.1) = stage :: rest ∧ (c.deliver m stage).outcome = .error fault

theorem progress_fresh : Progress c m [] fresh [] [] where
  groups := rfl
  collected := rfl
  finished := by simp [finishedStages, fresh]
  shuffle := .of_lines []
  raised := by simp [fresh]

section Steps

variable {actions : List PoolAction} {p : PoolRun} {earlier : List (List PooledStage)}
  {front : List PooledStage}

theorem Progress.start (h : Progress c m actions p earlier front) (stage : PooledStage) :
    Progress c m (actions ++ [.start stage]) (p.start stage) earlier front where
  groups := by
    rw [← h.groups]
    simp only [PoolRun.start, map_fst_move]
  collected := h.collected
  finished s hs := by
    rw [finishedStages_start] at hs
    exact List.mem_append_left _ (h.finished s hs)
  shuffle := by
    rw [finishedStages_start]
    exact h.shuffle
  raised fault hfault := by
    simp only [PoolRun.start, map_fst_move]
    exact h.raised fault hfault

theorem Progress.finish (h : Progress c m actions p earlier front) {stage : PooledStage}
    (hmem : (stage, .running) ∈ p.awaited) :
    Progress c m (actions ++ [.finish stage]) (p.finish c m stage) earlier front where
  groups := by
    rw [← h.groups]
    simp only [PoolRun.finish, map_fst_move]
  collected := h.collected
  finished s hs := by
    rw [List.mem_append, (finishedStages_finish hmem).mem_iff, List.mem_cons] at hs
    rcases hs with hs | rfl | hs
    · exact List.mem_append_left _ (h.finished s (List.mem_append_left _ hs))
    · simp
    · exact List.mem_append_left _ (h.finished s (List.mem_append_right _ hs))
  shuffle := by
    have hperm : (earlier.flatten ++ front ++ p.finishedStages ++ [stage]).Perm
        (earlier.flatten ++ front ++ (p.finish c m stage).finishedStages) := by
      rw [List.append_assoc]
      exact (List.perm_append_singleton stage p.finishedStages |>.trans
        (finishedStages_finish hmem).symm).append_left _
    have happend := h.shuffle.append (.of_reports (c.deliver m stage).log)
    rw [List.append_nil] at happend
    refine happend.congr ?_
    have hreports := hperm.flatMap_right fun s => (c.deliver m s).log
    simpa [Calculators.reports] using hreports
  raised fault hfault := by
    simp only [PoolRun.finish, map_fst_move]
    exact h.raised fault hfault

theorem Progress.submit (h : Progress c m actions p earlier front) {stage : PooledStage}
    {rest : List PooledStage} (hraised : p.raised = none)
    (hunsubmitted : p.unsubmitted = stage :: rest) :
    Progress c m (actions ++ [.proceed]) (p.submit stage rest) earlier front where
  groups := by
    rw [← h.groups]
    simp [PoolRun.submit, hunsubmitted]
  collected := h.collected
  finished s hs := by
    rw [finishedStages_submit] at hs
    exact List.mem_append_left _ (h.finished s hs)
  shuffle := by
    rw [finishedStages_submit]
    exact h.shuffle
  raised fault hfault := by
    have : p.raised = some fault := hfault
    rw [hraised] at this
    cases this

theorem Progress.take_ok (h : Progress c m actions p earlier front) {stage : PooledStage}
    {rest : List (PooledStage × StageStatus)} {delivery : Delivery} (hraised : p.raised = none)
    (hawaited : p.awaited = (stage, .finished) :: rest)
    (hstage : (c.deliver m stage).outcome = .ok delivery) :
    Progress c m (actions ++ [.proceed]) (p.take c m stage rest) earlier (front ++ [stage]) := by
  have htake : p.take c m stage rest =
      { p with
        awaited := rest
        outputs := p.outputs.store delivery
        log := p.log ++ [.stageDone stage] } := by
    simp [PoolRun.take, hstage]
  have hfinished : p.finishedStages = stage :: (p.take c m stage rest).finishedStages := by
    simp [finishedStages, htake, hawaited]
  have hstages : earlier.flatten ++ (front ++ [stage]) ++ (p.take c m stage rest).finishedStages =
      earlier.flatten ++ front ++ p.finishedStages := by
    simp [hfinished]
  refine ⟨?_, ?_, ?_, ?_, ?_⟩
  · rw [← h.groups]
    simp [htake, hawaited]
  · rw [← List.append_assoc, htake]
    exact Calculators.collect_concat h.collected hstage
  · intro s hs
    rw [hstages] at hs
    exact List.mem_append_left _ (h.finished s hs)
  · rw [hstages, htake]
    simpa using h.shuffle.append (.of_lines [.stageDone stage])
  · intro fault hfault
    rw [htake] at hfault
    exact absurd (hraised.symm.trans hfault) (by simp)

theorem Progress.take_error (h : Progress c m actions p earlier front) {stage : PooledStage}
    {rest : List (PooledStage × StageStatus)} {fault : Fault} (hunsubmitted : p.unsubmitted = [])
    (hawaited : p.awaited = (stage, .finished) :: rest)
    (hstage : (c.deliver m stage).outcome = .error fault) :
    Progress c m (actions ++ [.proceed]) (p.take c m stage rest) earlier front := by
  have htake : p.take c m stage rest = { p with raised := some fault } := by
    simp [PoolRun.take, hstage]
  rw [htake]
  refine ⟨h.groups, h.collected, fun s hs => List.mem_append_left _ (h.finished s hs), h.shuffle,
    fun fault' hfault => ⟨hunsubmitted, stage, rest.map (·.1), by simp [hawaited], ?_⟩⟩
  cases hfault
  exact hstage

theorem Progress.regroup (h : Progress c m actions p earlier front) {group : List PooledStage}
    {later : List (List PooledStage)} (hraised : p.raised = none)
    (hunsubmitted : p.unsubmitted = []) (hawaited : p.awaited = [])
    (hlater : p.later = group :: later) :
    Progress c m (actions ++ [.proceed]) (p.regroup group later) (earlier ++ [front]) [] where
  groups := by
    rw [← h.groups]
    simp [PoolRun.regroup, hunsubmitted, hawaited, hlater]
  collected := by simpa [PoolRun.regroup] using h.collected
  finished s hs := by
    refine List.mem_append_left _ (h.finished s ?_)
    simpa [finishedStages, PoolRun.regroup] using hs
  shuffle := by simpa [finishedStages, PoolRun.regroup] using h.shuffle
  raised fault hfault := by
    have : p.raised = some fault := hfault
    rw [hraised] at this
    cases this

theorem Progress.act (h : Progress c m actions p earlier front) {action : PoolAction} {p' : PoolRun}
    (hact : p.act? c m workers action = some (.active p')) :
    ∃ earlier' front', Progress c m (actions ++ [action]) p' earlier' front' := by
  cases action with
  | start stage =>
    simp only [act?, Option.ite_none_right_eq_some, Option.some.injEq, PoolState.active.injEq]
      at hact
    exact ⟨earlier, front, hact.2 ▸ h.start stage⟩
  | finish stage =>
    simp only [act?, Option.ite_none_right_eq_some, Option.some.injEq, PoolState.active.injEq]
      at hact
    exact ⟨earlier, front, hact.2 ▸ h.finish hact.1⟩
  | proceed =>
    have hturns := act?_proceed.1 hact ▸ turns_turn c m p
    cases hturns with
    | submits stage rest hraised hunsubmitted =>
      exact ⟨earlier, front, h.submit hraised hunsubmitted⟩
    | takes stage rest hraised hunsubmitted hawaited =>
      cases hstage : (c.deliver m stage).outcome with
      | ok delivery => exact ⟨earlier, front ++ [stage], h.take_ok hraised hawaited hstage⟩
      | error fault => exact ⟨earlier, front, h.take_error hunsubmitted hawaited hstage⟩
    | regroups group later hraised hunsubmitted hawaited hlater =>
      exact ⟨earlier ++ [front], [], h.regroup hraised hunsubmitted hawaited hlater⟩

end Steps

/-! ## Runs -/

theorem Reached.progress {actions : List PoolAction} {p : PoolRun}
    (h : Reached c m workers actions (.active p)) :
    ∃ earlier front, Progress c m actions p earlier front := by
  generalize hstate : PoolState.active p = state at h
  induction h generalizing p with
  | fresh =>
    cases hstate
    exact ⟨[], [], progress_fresh⟩
  | act hreached hact ih =>
    subst hstate
    obtain ⟨earlier, front, hprogress⟩ := ih rfl
    exact hprogress.act hact

section Ends

variable {actions : List PoolAction} {p : PoolRun} {earlier : List (List PooledStage)}
  {front : List PooledStage}

theorem Progress.pipeline_eq (h : Progress c m actions p earlier front) :
    PooledStage.pipeline =
      earlier.flatten ++ front ++ p.awaited.map (·.1) ++ p.unsubmitted ++ p.later.flatten := by
  have hflatten := congrArg List.flatten h.groups
  simp only [List.flatten_append, List.flatten_cons, List.flatten_nil, List.append_nil] at hflatten
  rw [PooledStage.pipeline, ← hflatten]
  simp only [List.append_assoc]

theorem Progress.ahead_eq_of_fails (h : Progress c m actions p earlier front) {stage : PooledStage}
    {rest : List PooledStage} {fault : Fault}
    (hpipeline : PooledStage.pipeline = earlier.flatten ++ front ++ stage :: rest)
    (hstage : (c.deliver m stage).outcome = .error fault) :
    c.ahead m PooledStage.pipeline = earlier.flatten ++ front := by
  rw [Calculators.ahead, hpipeline, List.takeWhile_append_of_pos fun s hs => ?_]
  · simp [Recorded.fault?_eq_some.2 hstage]
  · simpa using Calculators.delivers_of_collect h.collected s hs

theorem Progress.concludes (h : Progress c m actions p earlier front) (hp : p.Concludes) :
    PooledStage.pipeline = earlier.flatten ++ front := by
  rw [h.pipeline_eq, hp.nothing_awaited, hp.nothing_unsubmitted, hp.nothing_later]
  simp

/-- A run that has drained after a fault ends as the pipeline does. -/
theorem Progress.end_of_raised (h : Progress c m actions p earlier front) {fault : Fault}
    (hraised : p.raised = some fault) (hall : ∀ entry ∈ p.awaited, entry.2 = .finished) :
    (c.finale m).outcome = .error fault ∧ c.Tells m [] p.log := by
  obtain ⟨hunsubmitted, stage, rest, hawaited, hstage⟩ := h.raised fault hraised
  have hpipeline := h.pipeline_eq
  rw [hunsubmitted, hawaited, List.append_nil, List.append_assoc, List.cons_append] at hpipeline
  have hfinale : c.finale m = ⟨[], .error fault⟩ := by
    refine Calculators.finale_of_fails ?_
    rw [hpipeline]
    exact Calculators.collect_of_fails h.collected hstage
  have hahead := h.ahead_eq_of_fails hpipeline hstage
  refine ⟨by rw [hfinale], earlier.flatten ++ front ++ p.finishedStages, ?_, ?_, ?_⟩
  · rw [hahead]
    exact List.prefix_append _ _
  · rw [finishedStages_of_all hall, h.pipeline_eq, List.append_assoc _ p.unsubmitted]
    exact List.prefix_append _ _
  · rw [hahead, hfinale]
    simpa using h.shuffle

/-- A run that has taken everything ends as the pipeline does. -/
theorem Progress.end_of_concludes (h : Progress c m actions p earlier front) (hp : p.Concludes) :
    (c.finale m).outcome = (p.conclude c m).outcome ∧ c.Tells m [] (p.conclude c m).log := by
  have hpipeline := h.concludes hp
  have hcollected : c.collect m PooledStage.pipeline {} = .ok p.outputs := by
    rw [hpipeline]
    exact h.collected
  have hahead : c.ahead m PooledStage.pipeline = PooledStage.pipeline := by
    refine List.takeWhile_eq_self_iff.2 fun stage hstage => ?_
    simpa using Calculators.delivers_of_collect hcollected stage hstage
  have hfinale := Calculators.finale_of_collect hcollected
  refine ⟨by rw [hfinale]; rfl, PooledStage.pipeline, ?_, List.prefix_rfl, ?_⟩
  · exact List.takeWhile_prefix _
  · have hnone : p.finishedStages = [] := by simp [finishedStages, hp.nothing_awaited]
    rw [hahead, hfinale, hpipeline]
    have hshuffle := h.shuffle
    rw [hnone, List.append_nil] at hshuffle
    simpa [PoolRun.conclude] using hshuffle.append (.of_reports (c.conclude m p.outputs).log)

end Ends

/-- However a run came to its end, its outcome is that of the pipeline, and so is what it tells. -/
theorem Reached.ended {actions : List PoolAction} {result : Recorded MetricsReport}
    (h : Reached c m workers actions (.ended result)) :
    result.outcome = (c.finale m).outcome ∧ c.Tells m [] result.log := by
  cases h with
  | @act actions p action _ hreached hact =>
    obtain ⟨earlier, front, hprogress⟩ := hreached.progress
    cases action with
    | start stage => simp [act?] at hact
    | finish stage => simp [act?] at hact
    | proceed =>
      have hturns := act?_proceed.1 hact ▸ turns_turn c m p
      cases hturns with
      | drained fault hraised hall =>
        obtain ⟨houtcome, htells⟩ := hprogress.end_of_raised hraised hall
        exact ⟨houtcome.symm, htells⟩
      | concludes hraised hunsubmitted hawaited hlater =>
        obtain ⟨houtcome, htells⟩ :=
          hprogress.end_of_concludes ⟨hraised, hunsubmitted, hawaited, hlater⟩
        exact ⟨houtcome.symm, htells⟩

/-- When nothing is scheduled, what happens is possible as long as there is a worker. -/
theorem exists_act?_eq_advance (hworkers : 0 < workers) (p : PoolRun) :
    ∃ action, p.act? c m workers action = some (p.advance c m) := by
  rcases advance_cases c m p with hturn | ⟨stage, hmem, hadvance⟩ | ⟨stage, hmem, hnone, hadvance⟩
  · exact ⟨.proceed, act?_proceed.2 hturn⟩
  · exact ⟨.finish stage, by rw [hadvance, act?, if_pos hmem]⟩
  · have hcount : p.runningCount = 0 := List.countP_eq_zero.2 fun entry hentry => by
      simpa using hnone entry hentry
    exact ⟨.start stage, by rw [hadvance, act?, if_pos ⟨hmem, by omega⟩]⟩

theorem Reached.settle (hworkers : 0 < workers) {actions : List PoolAction} {p : PoolRun}
    (h : Reached c m workers actions (.active p)) :
    ∃ actions', Reached c m workers actions' (.ended (p.settle c m)) := by
  obtain ⟨action, hact⟩ := exists_act?_eq_advance (c := c) (m := m) hworkers p
  rw [PoolRun.settle]
  split
  · rename_i result hadvance
    exact ⟨_, h.act (hadvance ▸ hact)⟩
  · rename_i next hadvance
    exact (h.act (hadvance ▸ hact)).settle hworkers
termination_by p.cost
decreasing_by exact cost_advance ‹_›

theorem Reached.follow (hworkers : 0 < workers) (schedule : List PoolAction)
    {actions : List PoolAction} {p : PoolRun} (h : Reached c m workers actions (.active p)) :
    ∃ actions', Reached c m workers actions' (.ended (p.follow c m workers schedule)) := by
  induction schedule generalizing actions p with
  | nil => exact h.settle hworkers
  | cons action schedule ih =>
    rw [PoolRun.follow]
    split
    · rename_i next hact
      exact ih (h.act hact)
    · rename_i result hact
      exact ⟨_, h.act hact⟩
    · exact ih h

end PoolRun

end DesignMetrics
