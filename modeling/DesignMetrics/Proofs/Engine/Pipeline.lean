import Mathlib.Data.List.Perm.Basic
import DesignMetrics.Engine.Run

/-!
# The pipeline

What a run comes to, without the order in which its stages are performed: the records of the pooled
stages are collected in pipeline order up to the first that fails, and the summary is made of them.
A run of one stage after the other has this outcome. What it reports is an interleaving of its own
lines, one for each stage ahead of the first that fails, with the reports of the calculators.
-/

namespace DesignMetrics

/-- The pooled stages in the order in which they count. -/
def PooledStage.pipeline : List PooledStage := entityGroup ++ graphGroup

theorem PooledStage.mem_pipeline (stage : PooledStage) : stage ∈ pipeline := by
  cases stage <;> decide

def Recorded.fault? {α : Type} (x : Recorded α) : Option Fault :=
  match x.outcome with
  | .ok _ => none
  | .error fault => some fault

theorem Recorded.fault?_eq_some {α : Type} {x : Recorded α} {fault : Fault} :
    x.fault? = some fault ↔ x.outcome = .error fault := by
  unfold Recorded.fault?
  cases x.outcome <;> simp

theorem Recorded.fault?_eq_none {α : Type} {x : Recorded α} :
    x.fault? = none ↔ ∃ a, x.outcome = .ok a := by
  unfold Recorded.fault?
  cases x.outcome <;> simp

/-! ## Interleavings -/

/-- A log that holds some lines in their order, and apart from them some reports in any order. -/
structure IsShuffle (log lines reports : List LogEvent) : Prop where
  sublist : lines.Sublist log
  perm : log.Perm (lines ++ reports)

namespace IsShuffle

variable {log log' lines lines' reports reports' : List LogEvent}

theorem of_lines (lines : List LogEvent) : IsShuffle lines lines [] :=
  ⟨List.Sublist.refl lines, by simp⟩

theorem of_reports (reports : List LogEvent) : IsShuffle reports [] reports :=
  ⟨List.nil_sublist reports, by simp⟩

theorem append (h : IsShuffle log lines reports) (h' : IsShuffle log' lines' reports') :
    IsShuffle (log ++ log') (lines ++ lines') (reports ++ reports') := by
  refine ⟨h.sublist.append h'.sublist, (h.perm.append h'.perm).trans ?_⟩
  simp only [List.append_assoc]
  exact ((List.perm_append_comm_assoc reports lines' reports').append_left lines)

theorem congr (h : IsShuffle log lines reports) (hperm : reports.Perm reports') :
    IsShuffle log lines reports' :=
  ⟨h.sublist, h.perm.trans (hperm.append_left lines)⟩

end IsShuffle

namespace Calculators

variable (c : Calculators) (m : CodeModel)

/-! ## Outcomes -/

/-- Store what some stages deliver, up to the fault of the first that fails. -/
def collect (stages : List PooledStage) (o : Outputs) : Except Fault Outputs :=
  stages.foldlM (fun o stage => (c.deliver m stage).outcome.map o.store) o

/-- The end of a run that has collected the records of all pooled stages. -/
def finale : Recorded MetricsReport :=
  Recorded.ofExcept (c.collect m PooledStage.pipeline {}) >>= c.conclude m

/-- The fault of a stage. The summary is made of the types and the methods, so that it can only fail
by itself when these are there. -/
def fault? : Stage → Option Fault
  | .pooled stage => (c.deliver m stage).fault?
  | .summary =>
    match (c.types m).outcome, (c.methods m).outcome with
    | .ok types, .ok methods => (c.summary m types methods).fault?
    | _, _ => none

def firstFault? : Option Fault := Stage.pipeline.findSome? (c.fault? m)

theorem collect_cons (stage : PooledStage) (rest : List PooledStage) (o : Outputs) :
    c.collect m (stage :: rest) o =
      ((c.deliver m stage).outcome.map o.store).bind (c.collect m rest) :=
  List.foldlM_cons

theorem collect_append (front rest : List PooledStage) (o : Outputs) :
    c.collect m (front ++ rest) o = (c.collect m front o).bind (c.collect m rest) :=
  List.foldlM_append

variable {c m}

theorem collect_concat {front : List PooledStage} {stage : PooledStage} {o o' : Outputs}
    {delivery : Delivery} (hfront : c.collect m front o = .ok o')
    (hstage : (c.deliver m stage).outcome = .ok delivery) :
    c.collect m (front ++ [stage]) o = .ok (o'.store delivery) := by
  rw [collect_append, hfront]
  show c.collect m [stage] o' = _
  rw [collect_cons, hstage]
  rfl

theorem collect_of_fails {front rest : List PooledStage} {stage : PooledStage} {o o' : Outputs}
    {fault : Fault} (hfront : c.collect m front o = .ok o')
    (hstage : (c.deliver m stage).outcome = .error fault) :
    c.collect m (front ++ stage :: rest) o = .error fault := by
  rw [collect_append, hfront]
  show c.collect m (stage :: rest) o' = _
  rw [collect_cons, hstage]
  rfl

theorem collect_eq_error_iff {stages : List PooledStage} {o : Outputs} {fault : Fault} :
    c.collect m stages o = .error fault ↔
      stages.findSome? (fun stage => (c.deliver m stage).fault?) = some fault := by
  induction stages generalizing o with
  | nil => simp [collect, pure, Except.pure]
  | cons stage rest ih =>
    rw [collect_cons, List.findSome?_cons]
    cases hstage : (c.deliver m stage).outcome with
    | ok delivery =>
      rw [Recorded.fault?_eq_none.2 ⟨delivery, hstage⟩]
      exact ih
    | error fault' =>
      rw [Recorded.fault?_eq_some.2 hstage]
      simp [Except.map, Except.bind]

theorem delivers_of_collect {stages : List PooledStage} {o o' : Outputs}
    (h : c.collect m stages o = .ok o') : ∀ stage ∈ stages, (c.deliver m stage).fault? = none := by
  intro stage hstage
  refine Option.eq_none_iff_forall_ne_some.2 fun fault hfault => ?_
  obtain ⟨front, rest, rfl⟩ := List.append_of_mem hstage
  cases hfront : c.collect m front o with
  | ok o'' =>
    rw [collect_of_fails hfront (Recorded.fault?_eq_some.1 hfault)] at h
    cases h
  | error fault' =>
    rw [collect_append, hfront] at h
    cases h

/-- All records, when all pooled stages deliver. -/
theorem collect_pipeline (c : Calculators) (m : CodeModel) :
    c.collect m PooledStage.pipeline {} = do
      let methods ← (c.methods m).outcome
      let types ← (c.types m).outcome
      let namespaces ← (c.namespaces m).outcome
      let namespaceCoupling ← (c.namespaceCoupling m).outcome
      let typeCoupling ← (c.typeCoupling m).outcome
      let dependencies ← (c.dependencies m).outcome
      return { methods, types, namespaces, namespaceCoupling, typeCoupling, dependencies } := by
  simp only [collect, PooledStage.pipeline, PooledStage.entityGroup, PooledStage.graphGroup,
    List.cons_append, List.nil_append, List.foldlM_cons, List.foldlM_nil, deliver,
    Recorded.outcome_map]
  cases (c.methods m).outcome with
  | error fault => rfl
  | ok methods =>
    cases (c.types m).outcome with
    | error fault => rfl
    | ok types =>
      cases (c.namespaces m).outcome with
      | error fault => rfl
      | ok namespaces =>
        cases (c.namespaceCoupling m).outcome with
        | error fault => rfl
        | ok namespaceCoupling =>
          cases (c.typeCoupling m).outcome with
          | error fault => rfl
          | ok typeCoupling => cases (c.dependencies m).outcome <;> rfl

theorem outcome_types_of_collect {c : Calculators} {m : CodeModel} {o : Outputs}
    (h : c.collect m PooledStage.pipeline {} = .ok o) :
    (c.types m).outcome = .ok o.types ∧ (c.methods m).outcome = .ok o.methods := by
  rw [collect_pipeline] at h
  cases hmethods : (c.methods m).outcome with
  | error fault => simp [hmethods, bind, Except.bind] at h
  | ok methods =>
    cases htypes : (c.types m).outcome with
    | error fault => simp [hmethods, htypes, bind, Except.bind] at h
    | ok types =>
      simp only [hmethods, htypes, bind, Except.bind] at h
      split at h <;> try cases h
      split at h <;> try cases h
      split at h <;> try cases h
      split at h <;> cases h
      exact ⟨rfl, rfl⟩

theorem fault?_conclude (c : Calculators) (m : CodeModel) (o : Outputs) :
    (c.conclude m o).fault? = (c.summary m o.types o.methods).fault? := by
  unfold conclude Recorded.fault?
  rw [Recorded.outcome_bind]
  cases (c.summary m o.types o.methods).outcome <;> rfl

section Finale

variable {c : Calculators} {m : CodeModel}

theorem finale_of_collect {o : Outputs} (h : c.collect m PooledStage.pipeline {} = .ok o) :
    c.finale m = c.conclude m o := by
  rw [finale, h]
  rfl

theorem finale_of_fails {fault : Fault} (h : c.collect m PooledStage.pipeline {} = .error fault) :
    c.finale m = ⟨[], .error fault⟩ := by
  rw [finale, h]
  rfl

theorem fault?_finale (c : Calculators) (m : CodeModel) :
    (c.finale m).fault? = c.firstFault? m := by
  show _ = (PooledStage.pipeline.map Stage.pooled ++ [Stage.summary]).findSome? (c.fault? m)
  rw [List.findSome?_append, List.findSome?_map]
  cases h : c.collect m PooledStage.pipeline {} with
  | error fault =>
    have hpooled : PooledStage.pipeline.findSome? (c.fault? m ∘ Stage.pooled) = some fault :=
      collect_eq_error_iff.1 h
    rw [finale_of_fails h, hpooled]
    rfl
  | ok o =>
    have hpooled : PooledStage.pipeline.findSome? (c.fault? m ∘ Stage.pooled) = none :=
      List.findSome?_eq_none_iff.2 (delivers_of_collect h)
    obtain ⟨htypes, hmethods⟩ := outcome_types_of_collect h
    rw [finale_of_collect h, hpooled, fault?_conclude]
    simp [fault?, htypes, hmethods]

end Finale

/-! ## One stage after the other -/

variable (c : Calculators) (m : CodeModel)

def ahead (stages : List PooledStage) : List PooledStage :=
  stages.takeWhile fun stage => (c.deliver m stage).fault?.isNone

/-- What some stages report when they are performed in order. -/
def reports (stages : List PooledStage) : List LogEvent :=
  stages.flatMap fun stage => (c.deliver m stage).log

/-- What a run tells: its own lines on the stages ahead of the first that fails, in pipeline order,
and among them how it opened, what the performed stages reported and how it was concluded. -/
def Tells (opening log : List LogEvent) : Prop :=
  ∃ performed : List PooledStage,
    c.ahead m PooledStage.pipeline <+: performed ∧ performed <+: PooledStage.pipeline ∧
    IsShuffle log ((c.ahead m PooledStage.pipeline).map .stageDone)
      (opening ++ c.reports m performed ++ (c.finale m).log)

theorem runStages_cons (stage : PooledStage) (rest : List PooledStage) (o : Outputs) :
    c.runStages m (stage :: rest) o = c.deliver m stage >>= fun delivery =>
      Recorded.report (.stageDone stage) >>= fun _ => c.runStages m rest (o.store delivery) := by
  simp only [runStages, List.foldlM_cons, bind_assoc, pure_bind]

theorem runSequential_eq :
    c.runSequential m = c.runStages m PooledStage.pipeline {} >>= c.conclude m := by
  simp only [runSequential, runStages, PooledStage.pipeline, List.foldlM_append, bind_assoc]

theorem outcome_runStages (stages : List PooledStage) (o : Outputs) :
    (c.runStages m stages o).outcome = c.collect m stages o := by
  induction stages generalizing o with
  | nil => rfl
  | cons stage rest ih =>
    rw [runStages_cons, collect_cons, Recorded.outcome_bind]
    cases (c.deliver m stage).outcome with
    | error fault => rfl
    | ok delivery => exact ih (o.store delivery)

theorem outcome_runSequential : (c.runSequential m).outcome = (c.finale m).outcome := by
  rw [runSequential_eq, finale, Recorded.outcome_bind, Recorded.outcome_bind, outcome_runStages]
  rfl

theorem shuffle_runStages (stages : List PooledStage) (o : Outputs) :
    ∃ performed, c.ahead m stages <+: performed ∧ performed <+: stages ∧
      IsShuffle (c.runStages m stages o).log ((c.ahead m stages).map .stageDone)
        (c.reports m performed) := by
  induction stages generalizing o with
  | nil => exact ⟨[], List.prefix_rfl, List.prefix_rfl, .of_lines []⟩
  | cons stage rest ih =>
    rw [runStages_cons]
    cases hstage : (c.deliver m stage).outcome with
    | error fault =>
      have hahead : c.ahead m (stage :: rest) = [] := by
        simp [ahead, Recorded.fault?_eq_some.2 hstage]
      refine ⟨[stage], hahead ▸ List.nil_prefix, by simp, ?_⟩
      rw [hahead, Recorded.log_bind_of_error hstage]
      simpa [reports] using IsShuffle.of_reports (c.deliver m stage).log
    | ok delivery =>
      have hahead : c.ahead m (stage :: rest) = stage :: c.ahead m rest := by
        simp [ahead, Recorded.fault?_eq_none.2 ⟨delivery, hstage⟩]
      obtain ⟨performed, hle, hprefix, hshuffle⟩ := ih (o.store delivery)
      refine ⟨stage :: performed, ?_, List.cons_prefix_cons.2 ⟨rfl, hprefix⟩, ?_⟩
      · rw [hahead]
        exact List.cons_prefix_cons.2 ⟨rfl, hle⟩
      · rw [hahead, Recorded.log_bind_of_ok hstage]
        exact (IsShuffle.of_reports (c.deliver m stage).log).append
          ((IsShuffle.of_lines [.stageDone stage]).append hshuffle)

theorem tells_runSequential : c.Tells m [] (c.runSequential m).log := by
  obtain ⟨performed, hle, hprefix, hshuffle⟩ := c.shuffle_runStages m PooledStage.pipeline {}
  refine ⟨performed, hle, hprefix, ?_⟩
  rw [runSequential_eq]
  cases h : c.collect m PooledStage.pipeline {} with
  | error fault =>
    rw [Recorded.log_bind_of_error ((c.outcome_runStages m _ _).trans h), finale_of_fails h]
    simpa using hshuffle
  | ok o =>
    rw [Recorded.log_bind_of_ok ((c.outcome_runStages m _ _).trans h), finale_of_collect h]
    simpa using hshuffle.append (.of_reports (c.conclude m o).log)

end Calculators

end DesignMetrics
