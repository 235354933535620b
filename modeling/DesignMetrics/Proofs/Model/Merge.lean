import Mathlib.Data.List.Nodup
import DesignMetrics.Proofs.Model.Concat
import DesignMetrics.Proofs.Outcome

/-!
# What a merge is

Merging joins its models or fails. With two or more models it fails exactly when some full name
stands twice in the whole, and then reports the first one that does. Where no model repeats a name
by itself, a merge may be made in stages. A name that one model alone repeats stands twice as well,
and stops a merge in which no two models have a name in common.
-/

namespace DesignMetrics

/-! ## The first repeated name -/

/-- A name stands in a list again, and no name before that place does. -/
def IsFirstRepeat (name : String) (names : List String) : Prop :=
  ∃ before after, names = before ++ name :: after ∧ before.Nodup ∧ name ∈ before

theorem IsFirstRepeat.not_nodup {name : String} {names : List String}
    (h : IsFirstRepeat name names) : ¬ names.Nodup := by
  obtain ⟨before, after, rfl, -, hmem⟩ := h
  intro hnodup
  exact (List.nodup_append.1 hnodup).2.2 name hmem name List.mem_cons_self rfl

/-- The names seen already are those passed so far, so that nothing passed is a repeat. -/
theorem firstRepeat?_spec {seen : List String} (hseen : seen.Nodup) (names : List String) :
    match firstRepeat? seen names with
    | none => (seen.reverse ++ names).Nodup
    | some name => IsFirstRepeat name (seen.reverse ++ names) := by
  induction names generalizing seen with
  | nil => simpa [firstRepeat?] using hseen
  | cons first rest ih =>
    by_cases hmem : first ∈ seen
    · rw [firstRepeat?, if_pos hmem]
      exact ⟨seen.reverse, rest, rfl, List.nodup_reverse.2 hseen, List.mem_reverse.2 hmem⟩
    · have hpassed := ih (List.nodup_cons.2 ⟨hmem, hseen⟩)
      rw [List.reverse_cons, List.append_assoc, List.singleton_append] at hpassed
      rwa [firstRepeat?, if_neg hmem]

theorem firstRepeat?_append {seen before after : List String} {name : String}
    (hnodup : before.Nodup) (hnew : ∀ other ∈ before, other ∉ seen)
    (hmem : name ∈ before ∨ name ∈ seen) :
    firstRepeat? seen (before ++ name :: after) = some name := by
  induction before generalizing seen with
  | nil =>
    have hseen : name ∈ seen := hmem.resolve_left (by simp)
    exact if_pos hseen
  | cons first rest ih =>
    rw [List.nodup_cons] at hnodup
    rw [List.cons_append, firstRepeat?, if_neg (hnew first List.mem_cons_self)]
    apply ih hnodup.2
    · intro other hother hold
      rcases List.mem_cons.1 hold with rfl | hold
      · exact hnodup.1 hother
      · exact hnew other (List.mem_cons_of_mem first hother) hold
    · rcases hmem with hmem | hmem
      · exact (List.mem_cons.1 hmem).symm.imp_right fun heq => List.mem_cons.2 (Or.inl heq)
      · exact Or.inr (List.mem_cons_of_mem first hmem)

theorem firstRepeat?_eq_some_iff {names : List String} {name : String} :
    firstRepeat? [] names = some name ↔ IsFirstRepeat name names := by
  constructor
  · intro h
    have hspec := firstRepeat?_spec List.nodup_nil names
    rwa [h] at hspec
  · rintro ⟨before, after, rfl, hnodup, hmem⟩
    exact firstRepeat?_append hnodup (by simp) (Or.inl hmem)

theorem firstRepeat?_eq_none_iff {names : List String} :
    firstRepeat? [] names = none ↔ names.Nodup := by
  constructor
  · intro h
    have hspec := firstRepeat?_spec List.nodup_nil names
    rwa [h] at hspec
  · intro hnodup
    cases h : firstRepeat? [] names with
    | none => rfl
    | some name => exact absurd hnodup (firstRepeat?_eq_some_iff.1 h).not_nodup

namespace CodeModel

/-! ## Outcomes of a merge -/

theorem requireEach_of_missing {models : List (Option CodeModel)} (h : none ∈ models)
    (index : Nat) :
    requireEach index models =
      .error (.absent ("models[" ++ toString (index + models.findIdx (·.isNone)) ++ "]")) := by
  induction models generalizing index with
  | nil => simp at h
  | cons model rest ih =>
    cases model with
    | none => rfl
    | some m =>
      have hrest : none ∈ rest := by simpa using h
      have hindex : index + (some m :: rest).findIdx (·.isNone) =
          index + 1 + rest.findIdx (·.isNone) := by
        rw [List.findIdx_cons]
        simp
        omega
      rw [hindex, requireEach, ih hrest]
      rfl

theorem requireEach_map_some (models : List CodeModel) (index : Nat) :
    requireEach index (models.map some) = .ok models := by
  induction models generalizing index with
  | nil => rfl
  | cons m rest ih =>
    rw [List.map_cons, requireEach, ih]
    rfl

theorem outcome_merge_of_missing {models : List (Option CodeModel)} (h : none ∈ models) :
    (merge (some models)).outcome =
      .error (.absent ("models[" ++ toString (models.findIdx (·.isNone)) ++ "]")) := by
  have hrequire := requireEach_of_missing h 0
  rw [Nat.zero_add] at hrequire
  show (Recorded.ofExcept (requireEach 0 models) >>= mergeAll).outcome = _
  rw [hrequire]
  rfl

theorem merge_map_some (models : List CodeModel) :
    merge (some (models.map some)) = mergeAll models := by
  show (Recorded.ofExcept (requireEach 0 (models.map some)) >>= mergeAll) = _
  rw [requireEach_map_some]
  exact pure_bind models mergeAll

theorem outcome_mergeAll (first second : CodeModel) (rest : List CodeModel) :
    (mergeAll (first :: second :: rest)).outcome =
      match firstRepeat? [] ((first :: second :: rest).flatMap (·.typeFullNames)) with
      | some name => .error (.duplicateType name)
      | none => .ok (concat (first :: second :: rest)) := by
  simp only [mergeAll]
  cases firstRepeat? [] ((first :: second :: rest).flatMap typeFullNames) with
  | none => rfl
  | some name => rfl

/-- One model and none are joined unchecked; more are joined when no full name is repeated. -/
theorem merge_eq_ok_iff {models : List CodeModel} {whole : CodeModel} :
    (merge (some (models.map some))).outcome = .ok whole ↔
      IsConcat models whole ∧ (2 ≤ models.length → whole.typeFullNames.Nodup) := by
  rw [merge_map_some]
  match models with
  | [] =>
    show Except.ok (CodeModel.concat []) = Except.ok whole ↔ _
    rw [IsConcat.iff_eq_concat]
    simp [eq_comm]
  | [m] =>
    show Except.ok m = Except.ok whole ↔ _
    have hiff : IsConcat [m] whole ↔ whole = m :=
      ⟨fun h => h.unique (.single m), fun h => h ▸ .single m⟩
    rw [hiff]
    simp [eq_comm]
  | first :: second :: rest =>
    rw [outcome_mergeAll]
    cases h : firstRepeat? [] ((first :: second :: rest).flatMap (·.typeFullNames)) with
    | none =>
      have hnodup := firstRepeat?_eq_none_iff.1 h
      rw [Except.ok.injEq, eq_comm, ← IsConcat.iff_eq_concat]
      exact ⟨fun hwhole => ⟨hwhole, fun _ => hwhole.typeFullNames ▸ hnodup⟩, And.left⟩
    | some name =>
      have hrepeat := (firstRepeat?_eq_some_iff.1 h).not_nodup
      refine ⟨nofun, fun hwhole => absurd ?_ hrepeat⟩
      exact hwhole.1.typeFullNames ▸ hwhole.2 (by simp)

theorem merge_eq_error_iff {models : List CodeModel} {fault : Fault} :
    (merge (some (models.map some))).outcome = .error fault ↔
      2 ≤ models.length ∧ ∃ name, IsFirstRepeat name (models.flatMap (·.typeFullNames)) ∧
        fault = .duplicateType name := by
  rw [merge_map_some]
  match models with
  | [] => exact ⟨nofun, fun h => absurd h.1 (by simp)⟩
  | [m] => exact ⟨nofun, fun h => absurd h.1 (by simp)⟩
  | first :: second :: rest =>
    rw [outcome_mergeAll]
    simp only [← firstRepeat?_eq_some_iff]
    cases firstRepeat? [] ((first :: second :: rest).flatMap (·.typeFullNames)) with
    | none => simp
    | some name => simp [eq_comm]

theorem merge_fails_iff_not_nodup {models : List CodeModel} (h : 2 ≤ models.length) :
    (∃ name, (merge (some (models.map some))).outcome = .error (.duplicateType name)) ↔
      ¬ (models.flatMap (·.typeFullNames)).Nodup := by
  constructor
  · rintro ⟨name, hname⟩
    obtain ⟨-, _, hrepeat, -⟩ := merge_eq_error_iff.1 hname
    exact hrepeat.not_nodup
  · intro hrepeat
    obtain ⟨name, hname⟩ := Option.ne_none_iff_exists'.1 (mt firstRepeat?_eq_none_iff.1 hrepeat)
    exact ⟨name, merge_eq_error_iff.2 ⟨h, name, firstRepeat?_eq_some_iff.1 hname, rfl⟩⟩

/-- The content of a merge. A missing model is reported by the first place at which one is missing.
Otherwise a merge that returns has joined its models and, if they are two or more, has no full name
twice; one that fails reports the first full name that stands before it already. -/
theorem merge_content (models : List (Option CodeModel)) :
    (none ∈ models →
      (merge (some models)).outcome =
        .error (.absent ("models[" ++ toString (models.findIdx (·.isNone)) ++ "]"))) ∧
    ∀ inputs : List CodeModel, models = inputs.map some →
      (∀ whole, (merge (some models)).outcome = .ok whole ↔
        IsConcat inputs whole ∧ (2 ≤ inputs.length → whole.typeFullNames.Nodup)) ∧
      ∀ fault, (merge (some models)).outcome = .error fault ↔
        2 ≤ inputs.length ∧ ∃ name, IsFirstRepeat name (inputs.flatMap (·.typeFullNames)) ∧
          fault = .duplicateType name := by
  refine ⟨outcome_merge_of_missing, ?_⟩
  rintro inputs rfl
  exact ⟨fun _ => merge_eq_ok_iff, fun _ => merge_eq_error_iff⟩

/-- A type and a source without targets. -/
def lone : CodeModel where
  codebase := ⟨[⟨"left", [⟨"core", [{ fullName := "A" }]⟩]⟩]⟩
  graph := { typeEdges := .ofList [("X", ∅), ("A", .ofList ["B"])] }

def couple : CodeModel where
  codebase := ⟨[⟨"right", [⟨"core", [{ fullName := "B" }, { fullName := "C" }]⟩]⟩]⟩
  graph := { typeEdges := .ofList [("C", ∅), ("A", .ofList ["C"])] }

theorem merge_content_couple : ∃ whole,
    (merge (some [some lone, some couple])).outcome = .ok whole ∧ IsConcat [lone, couple] whole ∧
      whole.graph.typeEdges.sources = ["X", "A", "C"] ∧ whole.typeFullNames.Nodup ∧
      (merge (some [some lone, none, some lone])).outcome = .error (.absent "models[1]") ∧
      (merge (some [some couple, some lone, some couple])).outcome =
        .error (.duplicateType "B") := by
  have hok : (merge (some [some lone, some couple])).outcome = .ok (concat [lone, couple]) := rfl
  obtain ⟨hreturns, -⟩ := (merge_content [some lone, some couple]).2 [lone, couple] rfl
  obtain ⟨hwhole, hnodup⟩ := (hreturns _).1 hok
  obtain ⟨-, hfails⟩ := (merge_content [some couple, some lone, some couple]).2
    [couple, lone, couple] rfl
  have hrepeat : IsFirstRepeat "B" ["B", "C", "A", "B", "C"] :=
    ⟨["B", "C", "A"], ["C"], rfl, by decide, by decide⟩
  exact ⟨_, hok, hwhole, by decide, hnodup (by decide),
    (merge_content [some lone, none, some lone]).1 (by simp),
    (hfails _).2 ⟨by decide, "B", hrepeat, rfl⟩⟩

/-- No two models that were merged have a full name in common. -/
theorem disjoint_of_merge {models : List CodeModel} {whole : CodeModel}
    (h : (merge (some (models.map some))).outcome = .ok whole) :
    models.Pairwise fun m m' => m.typeFullNames.Disjoint m'.typeFullNames := by
  obtain ⟨hwhole, hnodup⟩ := merge_eq_ok_iff.1 h
  match models, hwhole, hnodup with
  | [], _, _ => exact .nil
  | [m], _, _ => exact List.pairwise_singleton _ m
  | first :: second :: rest, hwhole, hnodup =>
    have hnames := hnodup (by simp)
    rw [hwhole.typeFullNames, List.nodup_flatMap] at hnames
    exact hnames.2

/-! ## Merging in stages -/

/-- Two lists of models are merged, and then the two results. -/
def mergeStaged (xs ys : List CodeModel) : Recorded CodeModel := do
  let left ← merge (some (xs.map some))
  let right ← merge (some (ys.map some))
  merge (some [some left, some right])

theorem outcome_mergeStaged (xs ys : List CodeModel) :
    (mergeStaged xs ys).outcome =
      (merge (some (xs.map some))).outcome.bind fun left =>
        (merge (some (ys.map some))).outcome.bind fun right =>
          (merge (some ([left, right].map some))).outcome := by
  rw [mergeStaged, Recorded.outcome_bind]
  simp only [Recorded.outcome_bind]
  rfl

theorem outcome_merge_of_nodup {models : List CodeModel}
    (h : (models.flatMap (·.typeFullNames)).Nodup) :
    (merge (some (models.map some))).outcome = .ok (concat models) := by
  have hwhole := isConcat_concat models
  exact merge_eq_ok_iff.2 ⟨hwhole, fun _ => hwhole.typeFullNames ▸ h⟩

/-- One model that repeats no name leaves nothing to find in the whole: it takes two. -/
theorem two_le_length_of_repeat {models : List CodeModel}
    (h : ∀ m ∈ models, m.typeFullNames.Nodup)
    (hrepeat : ¬ (models.flatMap (·.typeFullNames)).Nodup) : 2 ≤ models.length := by
  match models, h, hrepeat with
  | [], _, hrepeat => exact absurd List.nodup_nil hrepeat
  | [m], h, hrepeat => exact absurd (by simpa using h) hrepeat
  | _ :: _ :: _, _, _ => simp

theorem outcome_merge_of_repeat {models : List CodeModel}
    (h : ∀ m ∈ models, m.typeFullNames.Nodup)
    (hrepeat : ¬ (models.flatMap (·.typeFullNames)).Nodup) :
    ∃ name, (merge (some (models.map some))).outcome = .error (.duplicateType name) :=
  (merge_fails_iff_not_nodup (two_le_length_of_repeat h hrepeat)).2 hrepeat

/-- Joining in stages leaves the full names as they are. -/
theorem flatMap_typeFullNames_stages (xs ys : List CodeModel) :
    [concat xs, concat ys].flatMap (·.typeFullNames) = (xs ++ ys).flatMap (·.typeFullNames) := by
  have hxs := (isConcat_concat xs).typeFullNames
  have hys := (isConcat_concat ys).typeFullNames
  simp [hxs, hys]

theorem outcome_mergeStaged_of_nodup {xs ys : List CodeModel}
    (h : ((xs ++ ys).flatMap (·.typeFullNames)).Nodup) :
    (mergeStaged xs ys).outcome = .ok (concat (xs ++ ys)) := by
  have hparts := h
  rw [List.flatMap_append, List.nodup_append] at hparts
  have hstages : ([concat xs, concat ys].flatMap (·.typeFullNames)).Nodup :=
    flatMap_typeFullNames_stages xs ys ▸ h
  rw [outcome_mergeStaged, outcome_merge_of_nodup hparts.1, outcome_merge_of_nodup hparts.2.1]
  show (merge (some ([concat xs, concat ys].map some))).outcome = _
  rw [outcome_merge_of_nodup hstages]
  have hwhole := (isConcat_concat xs).append (isConcat_concat ys) (isConcat_concat _)
  rw [IsConcat.iff_eq_concat.1 hwhole]

/-- The repeat is within the first list, within the second one, or between them. -/
theorem outcome_mergeStaged_of_repeat {xs ys : List CodeModel}
    (h : ∀ m ∈ xs ++ ys, m.typeFullNames.Nodup)
    (hrepeat : ¬ ((xs ++ ys).flatMap (·.typeFullNames)).Nodup) :
    ∃ name, (mergeStaged xs ys).outcome = .error (.duplicateType name) := by
  rw [outcome_mergeStaged]
  by_cases hxs : (xs.flatMap (·.typeFullNames)).Nodup
  · rw [outcome_merge_of_nodup hxs]
    by_cases hys : (ys.flatMap (·.typeFullNames)).Nodup
    · rw [outcome_merge_of_nodup hys]
      apply outcome_merge_of_repeat
      · simp [(isConcat_concat xs).typeFullNames, (isConcat_concat ys).typeFullNames, hxs, hys]
      · rwa [flatMap_typeFullNames_stages]
    · have hmodels : ∀ m ∈ ys, m.typeFullNames.Nodup :=
        fun m hm => h m (List.mem_append_right xs hm)
      obtain ⟨name, hname⟩ := outcome_merge_of_repeat hmodels hys
      exact ⟨name, by rw [hname]; rfl⟩
  · have hmodels : ∀ m ∈ xs, m.typeFullNames.Nodup := fun m hm => h m (List.mem_append_left ys hm)
    obtain ⟨name, hname⟩ := outcome_merge_of_repeat hmodels hxs
    exact ⟨name, by rw [hname]; rfl⟩

/-- Merging can be staged: when no model repeats a name by itself, merging two lists of models at
once and merging them apart first both give the same model or both report a repeated name. -/
theorem merge_staged {xs ys : List CodeModel} (h : ∀ m ∈ xs ++ ys, m.typeFullNames.Nodup) :
    (∃ whole, (merge (some ((xs ++ ys).map some))).outcome = .ok whole ∧
        (mergeStaged xs ys).outcome = .ok whole) ∨
      ∃ name name', (merge (some ((xs ++ ys).map some))).outcome = .error (.duplicateType name) ∧
        (mergeStaged xs ys).outcome = .error (.duplicateType name') := by
  by_cases hnodup : ((xs ++ ys).flatMap (·.typeFullNames)).Nodup
  · left
    exact ⟨_, outcome_merge_of_nodup hnodup, outcome_mergeStaged_of_nodup hnodup⟩
  · right
    obtain ⟨name, hname⟩ := outcome_merge_of_repeat h hnodup
    obtain ⟨name', hname'⟩ := outcome_mergeStaged_of_repeat h hnodup
    exact ⟨name, name', hname, hname'⟩

theorem merge_staged_couple :
    (∀ m ∈ [lone] ++ [], m.typeFullNames.Nodup) ∧
      (∀ m ∈ [lone] ++ [couple, lone], m.typeFullNames.Nodup) ∧
      (mergeStaged [lone] []).outcome = (merge (some [some lone])).outcome ∧
      ∃ name, (mergeStaged [lone] [couple, lone]).outcome = .error (.duplicateType name) := by
  have hnodup : ∀ m ∈ [lone] ++ [], m.typeFullNames.Nodup := by decide
  have hnodup' : ∀ m ∈ [lone] ++ [couple, lone], m.typeFullNames.Nodup := by decide
  refine ⟨hnodup, hnodup', ?_, ?_⟩
  · rcases merge_staged hnodup with ⟨whole, hwhole, hstaged⟩ | ⟨_, _, hfails, -⟩
    · exact hstaged.trans hwhole.symm
    · cases hfails
  · rcases merge_staged hnodup' with ⟨_, hwhole, -⟩ | ⟨_, name, -, hstaged⟩
    · cases hwhole
    · exact ⟨name, hstaged⟩

/-! ## Merges that fail -/

/-- Two models at different places of a list declare a type of one full name. -/
def Conflict (models : List CodeModel) : Prop :=
  ∃ i j : Nat, i < j ∧ ∃ m m' : CodeModel, models[i]? = some m ∧ models[j]? = some m' ∧
    ∃ name ∈ m.typeFullNames, name ∈ m'.typeFullNames

theorem not_conflict_iff {models : List CodeModel} :
    ¬ Conflict models ↔
      models.Pairwise fun m m' => m.typeFullNames.Disjoint m'.typeFullNames := by
  rw [List.pairwise_iff_getElem]
  constructor
  · intro hnot i j hi hj hij name hname hname'
    exact hnot ⟨i, j, hij, _, _, List.getElem?_eq_getElem hi, List.getElem?_eq_getElem hj, name,
      hname, hname'⟩
  · rintro hdisjoint ⟨i, j, hij, m, m', hm, hm', name, hname, hname'⟩
    obtain ⟨hi, rfl⟩ := List.getElem?_eq_some_iff.1 hm
    obtain ⟨hj, rfl⟩ := List.getElem?_eq_some_iff.1 hm'
    exact hdisjoint i j hi hj hij hname hname'

/-- A full name stands twice in the whole when two models share it or one model repeats it. -/
theorem nodup_typeFullNames_iff {models : List CodeModel} :
    (models.flatMap (·.typeFullNames)).Nodup ↔
      (∀ m ∈ models, m.typeFullNames.Nodup) ∧ ¬ Conflict models := by
  rw [List.nodup_flatMap, not_conflict_iff]

/-- A merge of two or more models fails when two of them have a full name in common, and also when
one of them repeats a full name by itself. So a model cannot even be merged with the empty one
unless its own full names are distinct. -/
theorem merge_fails_iff (first second : CodeModel) (rest : List CodeModel) :
    ((∃ name, (merge (some ((first :: second :: rest).map some))).outcome =
        .error (.duplicateType name)) ↔
      Conflict (first :: second :: rest) ∨
        ∃ m ∈ first :: second :: rest, ¬ m.typeFullNames.Nodup) ∧
    ((merge (some [some first, some .empty])).outcome = .ok first ↔ first.typeFullNames.Nodup) ∧
    ((merge (some [some .empty, some first])).outcome = .ok first ↔ first.typeFullNames.Nodup) := by
  refine ⟨?_, ?_, ?_⟩
  · rw [merge_fails_iff_not_nodup (by simp), nodup_typeFullNames_iff, not_and_or, not_not, or_comm]
    simp only [not_forall, exists_prop]
  · show (merge (some ([first, .empty].map some))).outcome = .ok first ↔ _
    rw [merge_eq_ok_iff, IsConcat.iff_eq_concat, concat_empty_right]
    simp
  · show (merge (some ([.empty, first].map some))).outcome = .ok first ↔ _
    rw [merge_eq_ok_iff, IsConcat.iff_eq_concat, concat_empty_left]
    simp

/-- A type that is declared twice in one model. -/
def repeating : CodeModel where
  codebase := ⟨[⟨"M", [⟨"N", [{ fullName := "N.T" }, { fullName := "N.T" }]⟩]⟩]⟩

theorem merge_fails_without_conflict :
    ¬ Conflict [repeating, .empty] ∧
      (merge (some [some repeating, some .empty])).outcome = .error (.duplicateType "N.T") ∧
      (merge (some [some repeating])).outcome = .ok repeating := by
  refine ⟨?_, rfl, rfl⟩
  rw [not_conflict_iff]
  have hempty : CodeModel.empty.typeFullNames = [] := rfl
  simp [hempty]

end CodeModel

end DesignMetrics
