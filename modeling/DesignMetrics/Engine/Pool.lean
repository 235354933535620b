import DesignMetrics.Engine.Calculators

/-!
# Runs on a pool of workers

The stages of a group are submitted one after the other, workers start and finish them in any order,
and the results are taken in pipeline order. The next group is turned to when all results of a group
have been taken. A result that is a fault is raised: nothing more is submitted, and the run ends
with it as soon as all submitted stages have finished.

What the workers do is data: a schedule is a list of actions, of which those that are not possible
do nothing, and when it has run out every action goes to the stage that is waited for.
-/

namespace DesignMetrics

inductive StageStatus where
  | waiting
  | running
  | finished
deriving DecidableEq, Repr

/-- Something that happens on a pool: a worker starts or finishes a stage, or the run itself goes on
with what it has to do next. -/
inductive PoolAction where
  | start (stage : PooledStage)
  | finish (stage : PooledStage)
  | proceed
deriving DecidableEq, Repr

/-- A run under way: the stages of the group still to be submitted, the submitted stages whose
results have not been taken, the groups to come, the records taken, the events reported so far and
the fault that was met. -/
structure PoolRun where
  unsubmitted : List PooledStage
  awaited : List (PooledStage × StageStatus)
  later : List (List PooledStage)
  outputs : Outputs := {}
  log : List LogEvent := []
  raised : Option Fault := none

inductive PoolState where
  | active (run : PoolRun)
  | ended (result : Recorded MetricsReport)

/-- What the run itself can do: go on, or wait for a stage that has not finished. -/
inductive PoolTurn where
  | moves (state : PoolState)
  | waits (stage : PooledStage)

namespace PoolRun

def move (stage : PooledStage) (source target : StageStatus) :
    List (PooledStage × StageStatus) → List (PooledStage × StageStatus)
  | [] => []
  | entry :: rest =>
    if entry = (stage, source) then (stage, target) :: rest
    else entry :: move stage source target rest

def start (p : PoolRun) (stage : PooledStage) : PoolRun :=
  { p with awaited := move stage .waiting .running p.awaited }

/-- A finished stage has reported what it had to report. -/
def finish (c : Calculators) (m : CodeModel) (p : PoolRun) (stage : PooledStage) : PoolRun :=
  { p with
    awaited := move stage .running .finished p.awaited
    log := p.log ++ (c.deliver m stage).log }

def submit (p : PoolRun) (stage : PooledStage) (rest : List PooledStage) : PoolRun :=
  { p with unsubmitted := rest, awaited := p.awaited ++ [(stage, .waiting)] }

/-- Take the result of a finished stage, or raise the fault it is. -/
def take (c : Calculators) (m : CodeModel) (p : PoolRun) (stage : PooledStage)
    (rest : List (PooledStage × StageStatus)) : PoolRun :=
  match (c.deliver m stage).outcome with
  | .ok delivery =>
    { p with
      awaited := rest
      outputs := p.outputs.store delivery
      log := p.log ++ [.stageDone stage] }
  | .error fault => { p with raised := some fault }

def regroup (p : PoolRun) (group : List PooledStage) (later : List (List PooledStage)) : PoolRun :=
  { p with unsubmitted := group, later }

/-- The end of a run all of whose results have been taken. -/
def conclude (c : Calculators) (m : CodeModel) (p : PoolRun) : Recorded MetricsReport :=
  ⟨p.log ++ (c.conclude m p.outputs).log, (c.conclude m p.outputs).outcome⟩

def turn (c : Calculators) (m : CodeModel) (p : PoolRun) : PoolTurn :=
  match p.raised with
  | some fault =>
    match p.awaited.find? (·.2 ≠ .finished) with
    | some entry => .waits entry.1
    | none => .moves (.ended ⟨p.log, .error fault⟩)
  | none =>
    match p.unsubmitted with
    | stage :: rest => .moves (.active (p.submit stage rest))
    | [] =>
      match p.awaited with
      | (stage, .finished) :: rest => .moves (.active (p.take c m stage rest))
      | (stage, _) :: _ => .waits stage
      | [] =>
        match p.later with
        | group :: later => .moves (.active (p.regroup group later))
        | [] => .moves (.ended (p.conclude c m))

def runningCount (p : PoolRun) : Nat := p.awaited.countP (·.2 = .running)

def act? (c : Calculators) (m : CodeModel) (workers : Nat) (p : PoolRun) :
    PoolAction → Option PoolState
  | .start stage =>
    if (stage, .waiting) ∈ p.awaited ∧ p.runningCount < workers then some (.active (p.start stage))
    else none
  | .finish stage =>
    if (stage, .running) ∈ p.awaited then some (.active (p.finish c m stage)) else none
  | .proceed =>
    match p.turn c m with
    | .moves state => some state
    | .waits _ => none

/-- The next action when no other is scheduled: the run goes on if it can, and otherwise lets a
running stage finish before the one it waits for is started. -/
def advance (c : Calculators) (m : CodeModel) (p : PoolRun) : PoolState :=
  match p.turn c m with
  | .moves state => state
  | .waits stage =>
    match p.awaited.find? (·.2 = .running) with
    | some entry => .active (p.finish c m entry.1)
    | none => .active (p.start stage)

/-! ## Every run ends -/

/-- The ways in which a run goes on, each with all that has to be the case for it. -/
inductive Turns (c : Calculators) (m : CodeModel) (p : PoolRun) : PoolTurn → Prop where
  | drained (fault : Fault) (hraised : p.raised = some fault)
      (hall : ∀ entry ∈ p.awaited, entry.2 = .finished) :
      Turns c m p (.moves (.ended ⟨p.log, .error fault⟩))
  | submits (stage : PooledStage) (rest : List PooledStage) (hraised : p.raised = none)
      (hunsubmitted : p.unsubmitted = stage :: rest) :
      Turns c m p (.moves (.active (p.submit stage rest)))
  | takes (stage : PooledStage) (rest : List (PooledStage × StageStatus))
      (hraised : p.raised = none) (hunsubmitted : p.unsubmitted = [])
      (hawaited : p.awaited = (stage, .finished) :: rest) :
      Turns c m p (.moves (.active (p.take c m stage rest)))
  | regroups (group : List PooledStage) (later : List (List PooledStage))
      (hraised : p.raised = none) (hunsubmitted : p.unsubmitted = []) (hawaited : p.awaited = [])
      (hlater : p.later = group :: later) :
      Turns c m p (.moves (.active (p.regroup group later)))
  | concludes (hraised : p.raised = none) (hunsubmitted : p.unsubmitted = [])
      (hawaited : p.awaited = []) (hlater : p.later = []) :
      Turns c m p (.moves (.ended (p.conclude c m)))
  | waits (stage : PooledStage) (status : StageStatus) (hmem : (stage, status) ∈ p.awaited)
      (hunfinished : status ≠ .finished) : Turns c m p (.waits stage)

theorem turns_turn (c : Calculators) (m : CodeModel) (p : PoolRun) :
    Turns c m p (p.turn c m) := by
  unfold turn
  cases hraised : p.raised with
  | some fault =>
    cases hfind : p.awaited.find? (·.2 ≠ .finished) with
    | some entry =>
      have hunfinished := List.find?_some hfind
      simp only [ne_eq, decide_eq_true_eq] at hunfinished
      exact .waits entry.1 entry.2 (List.mem_of_find?_eq_some hfind) hunfinished
    | none =>
      refine .drained fault hraised fun entry hentry => ?_
      simpa using List.find?_eq_none.1 hfind entry hentry
  | none =>
    cases hunsubmitted : p.unsubmitted with
    | cons stage rest => exact .submits stage rest hraised hunsubmitted
    | nil =>
      cases hawaited : p.awaited with
      | cons entry rest =>
        obtain ⟨stage, status⟩ := entry
        have hmem : (stage, status) ∈ p.awaited := by rw [hawaited]; exact List.mem_cons_self
        cases status with
        | finished => exact .takes stage rest hraised hunsubmitted hawaited
        | waiting => exact .waits stage .waiting hmem (by simp)
        | running => exact .waits stage .running hmem (by simp)
      | nil =>
        cases hlater : p.later with
        | cons group later => exact .regroups group later hraised hunsubmitted hawaited hlater
        | nil => exact .concludes hraised hunsubmitted hawaited hlater

/-- What comes of letting the run go on: it moves, or a stage that it waits for gets on. -/
theorem advance_cases (c : Calculators) (m : CodeModel) (p : PoolRun) :
    p.turn c m = .moves (p.advance c m) ∨
    (∃ stage, (stage, .running) ∈ p.awaited ∧ p.advance c m = .active (p.finish c m stage)) ∨
    (∃ stage, (stage, .waiting) ∈ p.awaited ∧ (∀ entry ∈ p.awaited, entry.2 ≠ .running) ∧
      p.advance c m = .active (p.start stage)) := by
  unfold advance
  generalize hturn : p.turn c m = turn
  have hturns := hturn ▸ turns_turn c m p
  cases turn with
  | moves state => exact .inl rfl
  | waits stage =>
    refine .inr ?_
    cases hrunning : p.awaited.find? (·.2 = .running) with
    | some entry =>
      have hstatus := List.find?_some hrunning
      simp only [decide_eq_true_eq] at hstatus
      refine .inl ⟨entry.1, ?_, rfl⟩
      rw [← hstatus]
      exact List.mem_of_find?_eq_some hrunning
    | none =>
      have hnone : ∀ entry ∈ p.awaited, entry.2 ≠ .running := by
        simpa using List.find?_eq_none.1 hrunning
      refine .inr ⟨stage, ?_, hnone, rfl⟩
      cases hturns with
      | waits _ status hmem hunfinished =>
        cases status with
        | waiting => exact hmem
        | running => exact absurd rfl (hnone _ hmem)
        | finished => exact absurd rfl hunfinished

def StageStatus.actionsLeft : StageStatus → Nat
  | .waiting => 3
  | .running => 2
  | .finished => 1

def awaitedCost : List (PooledStage × StageStatus) → Nat
  | [] => 0
  | entry :: rest => StageStatus.actionsLeft entry.2 + awaitedCost rest

def laterCost : List (List PooledStage) → Nat
  | [] => 0
  | group :: later => 4 * group.length + 1 + laterCost later

/-- A fault can be raised as long as none has been. -/
def raisesLeft : Option Fault → Nat
  | none => 1
  | some _ => 0

def cost (p : PoolRun) : Nat :=
  4 * p.unsubmitted.length + awaitedCost p.awaited + laterCost p.later + raisesLeft p.raised

theorem awaitedCost_concat (awaited : List (PooledStage × StageStatus)) (stage : PooledStage) :
    awaitedCost (awaited ++ [(stage, .waiting)]) = awaitedCost awaited + 3 := by
  induction awaited with
  | nil => rfl
  | cons entry rest ih =>
    simp only [List.cons_append, awaitedCost, ih]
    omega

theorem awaitedCost_move {stage : PooledStage} {source target : StageStatus}
    {awaited : List (PooledStage × StageStatus)} (hmem : (stage, source) ∈ awaited)
    (hlt : StageStatus.actionsLeft target < StageStatus.actionsLeft source) :
    awaitedCost (move stage source target awaited) < awaitedCost awaited := by
  induction awaited with
  | nil => simp at hmem
  | cons entry rest ih =>
    unfold move
    split
    · rename_i heq
      subst heq
      simpa [awaitedCost] using hlt
    · rename_i hne
      have hrest : (stage, source) ∈ rest := by
        rcases List.mem_cons.1 hmem with h | h
        · exact absurd h.symm hne
        · exact h
      simpa [awaitedCost] using ih hrest

theorem cost_start {p : PoolRun} {stage : PooledStage} (h : (stage, .waiting) ∈ p.awaited) :
    (p.start stage).cost < p.cost := by
  have : awaitedCost (move stage .waiting .running p.awaited) < awaitedCost p.awaited :=
    awaitedCost_move h (by decide)
  simp only [cost, start]
  omega

theorem cost_finish (c : Calculators) (m : CodeModel) {p : PoolRun} {stage : PooledStage}
    (h : (stage, .running) ∈ p.awaited) : (p.finish c m stage).cost < p.cost := by
  have : awaitedCost (move stage .running .finished p.awaited) < awaitedCost p.awaited :=
    awaitedCost_move h (by decide)
  simp only [cost, finish]
  omega

theorem cost_turn {c : Calculators} {m : CodeModel} {p p' : PoolRun}
    (h : p.turn c m = .moves (.active p')) : p'.cost < p.cost := by
  have hturns := h ▸ turns_turn c m p
  cases hturns with
  | submits stage rest hraised hunsubmitted =>
    simp only [cost, submit, hunsubmitted, awaitedCost_concat, List.length_cons]
    omega
  | takes stage rest hraised hunsubmitted hawaited =>
    unfold take
    split
    · simp only [cost, hawaited, awaitedCost, StageStatus.actionsLeft]
      omega
    · simp only [cost, hraised, raisesLeft]
      omega
  | regroups group later hraised hunsubmitted hawaited hlater =>
    simp only [cost, regroup, hunsubmitted, hlater, laterCost, List.length_nil]
    omega

theorem cost_advance {c : Calculators} {m : CodeModel} {p p' : PoolRun}
    (h : p.advance c m = .active p') : p'.cost < p.cost := by
  rcases advance_cases c m p with hturn | ⟨stage, hmem, hadvance⟩ | ⟨stage, hmem, -, hadvance⟩
  · exact cost_turn (h ▸ hturn)
  · cases hadvance.symm.trans h
    exact cost_finish c m hmem
  · cases hadvance.symm.trans h
    exact cost_start hmem

/-- Let the run come to its end by itself. -/
def settle (c : Calculators) (m : CodeModel) (p : PoolRun) : Recorded MetricsReport :=
  match _h : p.advance c m with
  | .ended result => result
  | .active next => settle c m next
termination_by p.cost
decreasing_by exact cost_advance _h

def follow (c : Calculators) (m : CodeModel) (workers : Nat) :
    List PoolAction → PoolRun → Recorded MetricsReport
  | [], p => p.settle c m
  | action :: schedule, p =>
    match p.act? c m workers action with
    | some (.active next) => follow c m workers schedule next
    | some (.ended result) => result
    | none => follow c m workers schedule p

/-- A run of which nothing has been submitted. -/
def fresh : PoolRun where
  unsubmitted := PooledStage.entityGroup
  awaited := []
  later := [PooledStage.graphGroup]

end PoolRun

def Calculators.runPooled (c : Calculators) (m : CodeModel) (workers : Nat)
    (schedule : List PoolAction) : Recorded MetricsReport :=
  PoolRun.fresh.follow c m workers schedule

end DesignMetrics
