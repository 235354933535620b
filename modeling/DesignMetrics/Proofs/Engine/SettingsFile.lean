import DesignMetrics.Engine.SettingsFile
import DesignMetrics.Proofs.Names.Distinct

/-!
# What a settings file is taken for

Which settings or which fault a file comes to, in terms of its document alone. A mapping gives
settings when it names nothing else and its values are in range; otherwise its names are at fault,
or else its workers, or else its threshold.

A document that is empty without being null passes for a missing one, and two refusals are no report
on the configuration: a name that is no text cannot be listed, and a value with too long a number
cannot be shown.
-/

namespace DesignMetrics

namespace Datum

variable {key value document : Datum} {name : String} {entries : List (Datum × Datum)}

theorem sameKey_text : key.sameKey (.text name) = true ↔ key = .text name := by
  cases key with
  | text other => simp [sameKey]
  | real x => cases x <;> exact iff_of_false Bool.false_ne_true nofun
  | _ => exact iff_of_false Bool.false_ne_true nofun

theorem isWritable_of_mem (h : areWritableEntries entries = true) (hmem : (key, value) ∈ entries) :
    value.isWritable = true := by
  induction entries with
  | nil => simp at hmem
  | cons entry rest ih =>
    simp only [areWritableEntries, Bool.and_eq_true] at h
    rcases List.mem_cons.1 hmem with hfirst | hrest
    · rw [← hfirst] at h
      exact h.1.2
    · exact ih h.2 hrest

end Datum

namespace Binary64

theorem rank_eq_zero {x : Binary64} :
    x.rank = 0 ↔ ∃ negative m, x = .finite negative m ∧ m.units = 0 := by
  have hpos := overflowUnits_pos
  cases x with
  | finite negative m =>
    have hrank : (finite negative m).rank = 0 ↔ m.units = 0 := by
      cases negative <;> simp only [rank, scaled] <;> omega
    rw [hrank]
    exact ⟨fun h => ⟨_, _, rfl, h⟩, fun ⟨_, _, heq, h⟩ => by cases heq; exact h⟩
  | infinite negative =>
    refine iff_of_false ?_ nofun
    cases negative <;> simp only [rank] <;> omega
  | nan =>
    refine iff_of_false ?_ nofun
    simp only [rank]
    omega

end Binary64

namespace EngineSettings

/-! ## Names and values of a mapping -/

def Names (entries : List (Datum × Datum)) (key : Datum) : Prop :=
  ∃ value, (key, value) ∈ entries

/-- The mapping holds the value under the name; of several values, the last counts. -/
def Gives (entries : List (Datum × Datum)) (name : String) (value : Datum) : Prop :=
  ∃ before after, entries = before ++ (.text name, value) :: after ∧ ¬ Names after (.text name)

/-- The value of a setting is the given one, or its default when none is given. -/
def Sets (entries : List (Datum × Datum)) (name : String) (usual value : Datum) : Prop :=
  Gives entries name value ∨ ¬ Names entries (.text name) ∧ value = usual

def OnlySettings (entries : List (Datum × Datum)) : Prop :=
  ∀ key, Names entries key → key = .text workersKey ∨ key = .text thresholdKey

/-- All names are texts, and those that are not names of settings are `names`, in order. -/
structure Strays (entries : List (Datum × Datum)) (names : List String) : Prop where
  texts : ∀ key, Names entries key → ∃ name, key = .text name
  ascending : names.Pairwise (· < ·)
  mem_iff : ∀ name, name ∈ names ↔
    Names entries (.text name) ∧ name ≠ workersKey ∧ name ≠ thresholdKey

/-- Some name is no text. -/
def HoldsUnnamed (entries : List (Datum × Datum)) : Prop :=
  ∃ key, Names entries key ∧ ∀ name, key ≠ .text name

/-- An integer that is large enough. Truth values are none. -/
def FromOn (least : Int) (value : Datum) : Prop := ∃ n, value = .integer n ∧ least ≤ n

variable {entries : List (Datum × Datum)} {key value usual workers threshold document : Datum}
  {name path : String} {names : List String} {s : EngineSettings} {fault : Fault}

theorem not_names_nil : ¬ Names [] key := by
  intro h
  obtain ⟨value, hmem⟩ := h
  cases hmem

theorem names_singleton {other : Datum} : Names [(key, value)] other ↔ other = key := by
  simp [Names]

theorem value?_eq_some : value? entries name = some value ↔ Gives entries name value := by
  rw [value?, Option.map_eq_some_iff]
  constructor
  · intro h
    obtain ⟨entry, hfound, rfl⟩ := h
    obtain ⟨hkey, later, earlier, heq, hlater⟩ := List.find?_eq_some_iff_append.1 hfound
    obtain ⟨key, value⟩ := entry
    obtain rfl := Datum.sameKey_text.1 hkey
    refine ⟨earlier.reverse, later.reverse, ?_, ?_⟩
    · simpa using congrArg List.reverse heq
    · intro hnames
      obtain ⟨other, hmem⟩ := hnames
      have hdiffers := hlater _ (List.mem_reverse.1 hmem)
      rw [Datum.sameKey_text.2 rfl] at hdiffers
      cases hdiffers
  · intro h
    obtain ⟨before, after, rfl, hafter⟩ := h
    refine ⟨(.text name, value), ?_, rfl⟩
    refine List.find?_eq_some_iff_append.2 ⟨Datum.sameKey_text.2 rfl, after.reverse, before.reverse,
      by simp, ?_⟩
    intro entry hentry
    simp only [Bool.not_eq_true', Bool.eq_false_iff, ne_eq, Datum.sameKey_text]
    intro hkey
    exact hafter ⟨entry.2, hkey ▸ List.mem_reverse.1 hentry⟩

theorem value?_eq_none : value? entries name = none ↔ ¬ Names entries (.text name) := by
  simp only [value?, Option.map_eq_none_iff, List.find?_eq_none, List.mem_reverse,
    Datum.sameKey_text, Names, Prod.forall]
  grind

theorem getD_value? : (value? entries name).getD usual = value ↔ Sets entries name usual value := by
  rw [Sets, ← value?_eq_some, ← value?_eq_none]
  cases value? entries name <;> simp [eq_comm]

theorem ofMembers_eq (hworkers : Sets entries workersKey (.integer 1) workers)
    (hthreshold : Sets entries thresholdKey (.integer 500) threshold) :
    ofMembers entries = ofValues workers threshold := by
  rw [← getD_value?.2 hworkers, ← getD_value?.2 hthreshold]
  rfl

theorem exists_sets (entries : List (Datum × Datum)) (name : String) (usual : Datum) :
    ∃ value, Sets entries name usual value :=
  ⟨_, getD_value?.1 rfl⟩

/-! ## Values in range -/

theorem ofValues_eq_ok : ofValues workers threshold = .ok s ↔
    workers = .integer s.maxWorkers ∧ threshold = .integer s.parallelThreshold := by
  constructor
  · intro h
    unfold ofValues at h
    split at h
    · split at h
      · split at h
        · split at h
          · cases h; exact ⟨rfl, rfl⟩
          · cases h
        · cases h
      · cases h
    · cases h
  · intro h
    obtain ⟨rfl, rfl⟩ := h
    simp only [ofValues, s.one_le_maxWorkers, s.parallelThreshold_nonneg, dif_pos]

theorem ofValues_of_workers (h : ¬ FromOn 1 workers) :
    ofValues workers threshold = .error (refusal .invalidWorkers workers) := by
  unfold ofValues
  split
  · next w =>
    have hw : ¬ 1 ≤ w := fun hle => h ⟨w, rfl, hle⟩
    rw [dif_neg hw]
  · rfl

theorem ofValues_of_threshold (hworkers : FromOn 1 workers) (h : ¬ FromOn 0 threshold) :
    ofValues workers threshold = .error (refusal .invalidThreshold threshold) := by
  obtain ⟨w, rfl, hw⟩ := hworkers
  simp only [ofValues, dif_pos hw]
  split
  · next t =>
    have ht : ¬ 0 ≤ t := fun hle => h ⟨t, rfl, hle⟩
    rw [dif_neg ht]
  · rfl

theorem exists_ofValues (hworkers : FromOn 1 workers) (hthreshold : FromOn 0 threshold) :
    ∃ s, ofValues workers threshold = .ok s := by
  obtain ⟨w, rfl, hw⟩ := hworkers
  obtain ⟨t, rfl, ht⟩ := hthreshold
  exact ⟨⟨w, t, hw, ht⟩, ofValues_eq_ok.2 ⟨rfl, rfl⟩⟩

/-! ## Names that are no settings -/

def unknownKeys (entries : List (Datum × Datum)) : List Datum :=
  (entries.map (·.1)).filter (!isKnownKey ·)

theorem mem_unknownKeys : key ∈ unknownKeys entries ↔
    Names entries key ∧ key ≠ .text workersKey ∧ key ≠ .text thresholdKey := by
  simp [unknownKeys, Names, isKnownKey, Bool.eq_false_iff, Datum.sameKey_text]

theorem keyTexts?_eq_some {keys : List Datum} : keyTexts? keys = some names ↔
    keys = names.map .text := by
  induction keys generalizing names with
  | nil => cases names <;> simp [keyTexts?]
  | cons key rest ih =>
    cases key with
    | text name =>
      cases names with
      | nil => simp [keyTexts?]
      | cons first names =>
        simp only [keyTexts?, Option.map_eq_some_iff, ih, List.map_cons, List.cons.injEq,
          Datum.text.injEq]
        grind
    | _ => cases names <;> simp [keyTexts?]

theorem keyTexts?_eq_none {keys : List Datum} : keyTexts? keys = none ↔
    ∃ key ∈ keys, ∀ name, key ≠ .text name := by
  induction keys with
  | nil => simp [keyTexts?]
  | cons key rest ih => cases key <;> simp [keyTexts?, ih]

theorem ofMapping_of_unknown (h : unknownKeys entries ≠ []) : ofMapping entries =
    match keyTexts? (unknownKeys entries) with
    | some names => .error (.unknownSettings (NameSet.ofList names).names)
    | none => .error .unnamedSetting := by
  simp only [ofMapping]
  split
  · next hnil => exact absurd hnil h
  · rfl

theorem ofMapping_of_holdsUnnamed (h : HoldsUnnamed entries) :
    ofMapping entries = .error .unnamedSetting := by
  obtain ⟨key, hkey, hname⟩ := h
  have hmem : key ∈ unknownKeys entries := mem_unknownKeys.2 ⟨hkey, hname _, hname _⟩
  have hnone : keyTexts? (unknownKeys entries) = none := keyTexts?_eq_none.2 ⟨key, hmem, hname⟩
  rw [ofMapping_of_unknown (List.ne_nil_of_mem hmem), hnone]

theorem strays_ofList (h : keyTexts? (unknownKeys entries) = some names) :
    Strays entries (NameSet.ofList names).names := by
  have hmap := keyTexts?_eq_some.1 h
  constructor
  · intro key hkey
    by_cases hworkers : key = .text workersKey
    · exact ⟨_, hworkers⟩
    · by_cases hthreshold : key = .text thresholdKey
      · exact ⟨_, hthreshold⟩
      · have hmem := mem_unknownKeys.2 ⟨hkey, hworkers, hthreshold⟩
        rw [hmap] at hmem
        obtain ⟨name, -, heq⟩ := List.mem_map.1 hmem
        exact ⟨name, heq.symm⟩
  · exact (NameSet.ofList names).ascending
  · intro name
    have hunknown : .text name ∈ unknownKeys entries ↔ name ∈ names := by simp [hmap]
    rw [mem_unknownKeys, Ne, Ne, Datum.text.injEq, Datum.text.injEq] at hunknown
    exact NameSet.mem_ofList.trans hunknown.symm

theorem holdsUnnamed_or_strays (entries : List (Datum × Datum)) :
    HoldsUnnamed entries ∨ ∃ names, Strays entries names := by
  cases h : keyTexts? (unknownKeys entries) with
  | none =>
    obtain ⟨key, hmem, hname⟩ := keyTexts?_eq_none.1 h
    exact .inl ⟨key, (mem_unknownKeys.1 hmem).1, hname⟩
  | some names => exact .inr ⟨_, strays_ofList h⟩

theorem Strays.not_holdsUnnamed (h : Strays entries names) : ¬ HoldsUnnamed entries := by
  intro hunnamed
  obtain ⟨key, hkey, hname⟩ := hunnamed
  obtain ⟨name, heq⟩ := h.texts key hkey
  exact hname name heq

theorem Strays.unique {others : List String} (h : Strays entries names)
    (hothers : Strays entries others) : names = others :=
  ascending_ext h.ascending hothers.ascending fun name =>
    (h.mem_iff name).trans (hothers.mem_iff name).symm

theorem strays_nil : Strays entries [] ↔ OnlySettings entries := by
  constructor
  · intro h key hkey
    obtain ⟨name, rfl⟩ := h.texts key hkey
    have hname := h.mem_iff name
    grind
  · intro h
    constructor
    · intro key hkey
      exact (h key hkey).elim (fun heq => ⟨_, heq⟩) fun heq => ⟨_, heq⟩
    · exact .nil
    · intro name
      have hname := h (.text name)
      grind

theorem unknownKeys_eq_nil : unknownKeys entries = [] ↔ OnlySettings entries := by
  rw [List.eq_nil_iff_forall_not_mem]
  simp only [mem_unknownKeys, OnlySettings]
  grind

theorem ofMapping_of_onlySettings (h : OnlySettings entries) :
    ofMapping entries = ofMembers entries := by
  have hnil := unknownKeys_eq_nil.2 h
  rw [unknownKeys] at hnil
  simp only [ofMapping, hnil]

theorem ofMapping_of_strays (h : Strays entries names) (hne : names ≠ []) :
    ofMapping entries = .error (.unknownSettings names) := by
  have hunknown : unknownKeys entries ≠ [] := by
    intro hnil
    exact hne (h.unique (strays_nil.2 (unknownKeys_eq_nil.1 hnil)))
  rw [ofMapping_of_unknown hunknown]
  cases hkeys : keyTexts? (unknownKeys entries) with
  | none =>
    obtain ⟨key, hmem, hname⟩ := keyTexts?_eq_none.1 hkeys
    exact absurd ⟨key, (mem_unknownKeys.1 hmem).1, hname⟩ h.not_holdsUnnamed
  | some unknown => rw [h.unique (strays_ofList hkeys)]

/-- The names of a mapping decide whether its values are looked at. -/
theorem ofMapping_cases (entries : List (Datum × Datum)) :
    (HoldsUnnamed entries ∧ ofMapping entries = .error .unnamedSetting) ∨
      (∃ names, Strays entries names ∧ names ≠ [] ∧
        ofMapping entries = .error (.unknownSettings names)) ∨
      OnlySettings entries ∧ ofMapping entries = ofMembers entries := by
  obtain hunnamed | ⟨names, hstrays⟩ := holdsUnnamed_or_strays entries
  · exact .inl ⟨hunnamed, ofMapping_of_holdsUnnamed hunnamed⟩
  · by_cases hne : names = []
    · have known := strays_nil.1 (hne ▸ hstrays)
      exact .inr (.inr ⟨known, ofMapping_of_onlySettings known⟩)
    · exact .inr (.inl ⟨names, hstrays, hne, ofMapping_of_strays hstrays hne⟩)

/-! ## What documents give -/

/-- The settings that a document describes: those of a mapping, or the defaults for null. -/
inductive Describes : Datum → EngineSettings → Prop where
  | null : Describes .null {}
  | mapping {entries : List (Datum × Datum)} {s : EngineSettings}
      (known : OnlySettings entries)
      (workers : Sets entries workersKey (.integer 1) (.integer s.maxWorkers))
      (threshold : Sets entries thresholdKey (.integer 500) (.integer s.parallelThreshold)) :
      Describes (.mapping entries) s

/-- A document that is no mapping and is not null, but empty or zero. -/
inductive PassesForNull : Datum → Prop where
  | falsehood : PassesForNull (.truth false)
  | zero : PassesForNull (.integer 0)
  | realZero (negative : Bool) {m : Magnitude} (h : m.units = 0) :
      PassesForNull (.real (.finite negative m))
  | text : PassesForNull (.text "")
  | binary : PassesForNull (.binary [])
  | list : PassesForNull (.list [])
  | pairs : PassesForNull (.pairs [])
  | set : PassesForNull (.set [])

/-- The fault of a document that gives no settings. -/
inductive Refuses (path : String) : Datum → Fault → Prop where
  | notMapping {document : Datum} (null : document ≠ .null) (empty : ¬ PassesForNull document)
      (mapping : ∀ entries, document ≠ .mapping entries) :
      Refuses path document (.settingsNotMapping path)
  | unnamed {entries : List (Datum × Datum)} (h : HoldsUnnamed entries) :
      Refuses path (.mapping entries) .unnamedSetting
  | unknown {entries : List (Datum × Datum)} {names : List String} (h : Strays entries names)
      (hne : names ≠ []) : Refuses path (.mapping entries) (.unknownSettings names)
  | workers {entries : List (Datum × Datum)} {workers : Datum} (known : OnlySettings entries)
      (hworkers : Sets entries workersKey (.integer 1) workers) (h : ¬ FromOn 1 workers) :
      Refuses path (.mapping entries) (refusal .invalidWorkers workers)
  | threshold {entries : List (Datum × Datum)} {workers threshold : Datum}
      (known : OnlySettings entries)
      (hworkers : Sets entries workersKey (.integer 1) workers) (hrange : FromOn 1 workers)
      (hthreshold : Sets entries thresholdKey (.integer 500) threshold)
      (h : ¬ FromOn 0 threshold) :
      Refuses path (.mapping entries) (refusal .invalidThreshold threshold)

theorem isVacant_iff : document.isVacant = true ↔
    document = .null ∨ document = .mapping [] ∨ PassesForNull document := by
  constructor
  · intro h
    cases document with
    | null => exact .inl rfl
    | truth b =>
      obtain rfl : b = false := by simpa [Datum.isVacant] using h
      exact .inr (.inr .falsehood)
    | integer n =>
      obtain rfl : n = 0 := by simpa [Datum.isVacant] using h
      exact .inr (.inr .zero)
    | real x =>
      have hrank : x.rank = 0 := by simpa [Datum.isVacant] using h
      obtain ⟨negative, m, rfl, hunits⟩ := Binary64.rank_eq_zero.1 hrank
      exact .inr (.inr (.realZero negative hunits))
    | text t =>
      obtain rfl : t = "" := by simpa [Datum.isVacant] using h
      exact .inr (.inr .text)
    | binary octets =>
      obtain rfl : octets = [] := by simpa [Datum.isVacant] using h
      exact .inr (.inr .binary)
    | timestamp t => simp [Datum.isVacant] at h
    | list items =>
      obtain rfl : items = [] := by simpa [Datum.isVacant] using h
      exact .inr (.inr .list)
    | mapping entries =>
      obtain rfl : entries = [] := by simpa [Datum.isVacant] using h
      exact .inr (.inl rfl)
    | pairs entries =>
      obtain rfl : entries = [] := by simpa [Datum.isVacant] using h
      exact .inr (.inr .pairs)
    | set members =>
      obtain rfl : members = [] := by simpa [Datum.isVacant] using h
      exact .inr (.inr .set)
  · intro h
    obtain rfl | rfl | hpasses := h
    · rfl
    · rfl
    · cases hpasses with
      | realZero negative hunits =>
        simpa [Datum.isVacant] using Binary64.rank_eq_zero.2 ⟨negative, _, rfl, hunits⟩
      | _ => rfl

theorem ofMembers_eq_ok : ofMembers entries = .ok s ↔
    Sets entries workersKey (.integer 1) (.integer s.maxWorkers) ∧
      Sets entries thresholdKey (.integer 500) (.integer s.parallelThreshold) := by
  rw [ofMembers, ofValues_eq_ok, getD_value?, getD_value?]

theorem ofMapping_eq_ok : ofMapping entries = .ok s ↔ Describes (.mapping entries) s := by
  constructor
  · intro h
    obtain ⟨-, heq⟩ | ⟨names, -, -, heq⟩ | ⟨known, heq⟩ := ofMapping_cases entries
    · rw [heq] at h
      cases h
    · rw [heq] at h
      cases h
    · rw [heq, ofMembers_eq_ok] at h
      exact .mapping known h.1 h.2
  · intro h
    cases h with
    | mapping known workers threshold =>
      rw [ofMapping_of_onlySettings known]
      exact ofMembers_eq_ok.2 ⟨workers, threshold⟩

theorem refuses_of_ofMembers (known : OnlySettings entries) (h : ofMembers entries = .error fault) :
    Refuses path (.mapping entries) fault := by
  obtain ⟨workers, hworkers⟩ := exists_sets entries workersKey (.integer 1)
  obtain ⟨threshold, hthreshold⟩ := exists_sets entries thresholdKey (.integer 500)
  rw [ofMembers_eq hworkers hthreshold] at h
  by_cases hrange : FromOn 1 workers
  · by_cases hfrom : FromOn 0 threshold
    · obtain ⟨s, hs⟩ := exists_ofValues hrange hfrom
      rw [hs] at h
      cases h
    · rw [ofValues_of_threshold hrange hfrom] at h
      cases h
      exact .threshold known hworkers hrange hthreshold hfrom
  · rw [ofValues_of_workers hrange] at h
    cases h
    exact .workers known hworkers hrange

theorem ofMapping_eq_error :
    ofMapping entries = .error fault ↔ Refuses path (.mapping entries) fault := by
  constructor
  · intro h
    obtain ⟨hunnamed, heq⟩ | ⟨names, hstrays, hne, heq⟩ | ⟨known, heq⟩ := ofMapping_cases entries
    · rw [heq] at h
      cases h
      exact .unnamed hunnamed
    · rw [heq] at h
      cases h
      exact .unknown hstrays hne
    · rw [heq] at h
      exact refuses_of_ofMembers known h
  · intro h
    cases h with
    | notMapping null empty mapping => exact absurd rfl (mapping entries)
    | unnamed hunnamed => exact ofMapping_of_holdsUnnamed hunnamed
    | unknown hstrays hne => exact ofMapping_of_strays hstrays hne
    | workers known hworkers hrange =>
      obtain ⟨threshold, hthreshold⟩ := exists_sets entries thresholdKey (.integer 500)
      rw [ofMapping_of_onlySettings known, ofMembers_eq hworkers hthreshold,
        ofValues_of_workers hrange]
    | threshold known hworkers hrange hthreshold hfrom =>
      rw [ofMapping_of_onlySettings known, ofMembers_eq hworkers hthreshold,
        ofValues_of_threshold hrange hfrom]

/-- A value out of range is no default, so the mapping gives it. -/
theorem Sets.gives {least n : Int} (h : Sets entries name (.integer n) value) (hn : least ≤ n)
    (hrange : ¬ FromOn least value) : Gives entries name value := by
  obtain hgives | ⟨-, rfl⟩ := h
  · exact hgives
  · exact absurd ⟨n, rfl, hn⟩ hrange

theorem Gives.isWritable (h : Gives entries name value)
    (hwritable : (Datum.mapping entries).isWritable = true) : value.isWritable = true := by
  obtain ⟨before, after, rfl, -⟩ := h
  exact Datum.isWritable_of_mem hwritable (List.mem_append_right _ (List.mem_cons_self ..))

theorem refusal_cases (report : Datum → Fault) (h : Gives entries name value) :
    refusal report value = report value ∨
      refusal report value = .unwritableNumber ∧ (Datum.mapping entries).isWritable = false := by
  cases hvalue : value.isWritable with
  | true => exact .inl (if_pos hvalue)
  | false =>
    refine .inr ⟨if_neg (by simp [hvalue]), ?_⟩
    rw [Bool.eq_false_iff]
    intro hwritable
    rw [h.isWritable hwritable] at hvalue
    cases hvalue

/-- A refusal is a report on the configuration unless a name is no text or a number is too long. -/
theorem Refuses.category (h : Refuses path document fault) :
    fault.category? = some .configuration ∨ fault = .unnamedSetting ∨
      fault = .unwritableNumber ∧ document.isWritable = false := by
  cases h with
  | notMapping => exact .inl rfl
  | unnamed => exact .inr (.inl rfl)
  | unknown => exact .inl rfl
  | workers known hworkers hrange =>
    obtain heq | hlong := refusal_cases .invalidWorkers (hworkers.gives (Int.le_refl 1) hrange)
    · exact .inl (heq ▸ rfl)
    · exact .inr (.inr hlong)
  | threshold known hworkers hrange hthreshold hfrom =>
    obtain heq | hlong := refusal_cases .invalidThreshold (hthreshold.gives (by decide) hfrom)
    · exact .inl (heq ▸ rfl)
    · exact .inr (.inr hlong)

theorem ofDocument_of_isVacant (h : document.isVacant = true) :
    ofDocument path document = .ok {} := by
  unfold ofDocument
  rw [if_pos h]
  rfl

theorem ofDocument_mapping : ofDocument path (.mapping entries) = ofMapping entries := by
  cases entries <;> rfl

theorem ofDocument_of_not_mapping (h : document.isVacant = false)
    (hmapping : ∀ entries, document ≠ .mapping entries) :
    ofDocument path document = .error (.settingsNotMapping path) := by
  unfold ofDocument
  rw [if_neg (by simp [h])]
  split
  · next entries => exact absurd rfl (hmapping entries)
  · rfl

theorem refuses_iff_of_not_mapping (hmapping : ∀ entries, document ≠ .mapping entries) :
    Refuses path document fault ↔
      document.isVacant = false ∧ fault = .settingsNotMapping path := by
  rw [Bool.eq_false_iff, Ne, isVacant_iff]
  constructor
  · intro h
    cases h with
    | notMapping null empty =>
      refine ⟨?_, rfl⟩
      intro hvacant
      obtain hnull | hnil | hpasses := hvacant
      · exact null hnull
      · exact hmapping [] hnil
      · exact empty hpasses
    | _ => exact absurd rfl (hmapping _)
  · intro h
    obtain ⟨hvacant, rfl⟩ := h
    exact .notMapping (fun hnull => hvacant (.inl hnull))
      (fun hpasses => hvacant (.inr (.inr hpasses))) hmapping

theorem ofDocument_eq_ok : ofDocument path document = .ok s ↔
    Describes document s ∨ PassesForNull document ∧ s = {} := by
  constructor
  · intro h
    by_cases hmapping : ∃ entries, document = .mapping entries
    · obtain ⟨entries, rfl⟩ := hmapping
      rw [ofDocument_mapping, ofMapping_eq_ok] at h
      exact .inl h
    · have hnot : ∀ entries, document ≠ .mapping entries := fun entries heq =>
        hmapping ⟨entries, heq⟩
      cases hvacant : document.isVacant with
      | false =>
        rw [ofDocument_of_not_mapping hvacant hnot] at h
        cases h
      | true =>
        rw [ofDocument_of_isVacant hvacant] at h
        cases h
        obtain rfl | hnil | hpasses := isVacant_iff.1 hvacant
        · exact .inl .null
        · exact absurd hnil (hnot [])
        · exact .inr ⟨hpasses, rfl⟩
  · intro h
    obtain hdescribes | ⟨hpasses, rfl⟩ := h
    · cases hdescribes with
      | null => rfl
      | mapping known workers threshold =>
        rw [ofDocument_mapping, ofMapping_eq_ok]
        exact .mapping known workers threshold
    · exact ofDocument_of_isVacant (isVacant_iff.2 (.inr (.inr hpasses)))

theorem ofDocument_eq_error :
    ofDocument path document = .error fault ↔ Refuses path document fault := by
  by_cases hmapping : ∃ entries, document = .mapping entries
  · obtain ⟨entries, rfl⟩ := hmapping
    rw [ofDocument_mapping]
    exact ofMapping_eq_error
  · have hnot : ∀ entries, document ≠ .mapping entries := fun entries heq =>
      hmapping ⟨entries, heq⟩
    rw [refuses_iff_of_not_mapping hnot]
    cases hvacant : document.isVacant with
    | false => simp [ofDocument_of_not_mapping hvacant hnot, eq_comm]
    | true => simp [ofDocument_of_isVacant hvacant]

end EngineSettings

namespace SettingsFile

open EngineSettings Yaml

/-- A short text can be evaluated stage by stage, where reading it at once is out of reach. -/
theorem read_of_stages {text : String} {tokens : List Token} {graph : Graph} {document : Datum}
    (htokens : tokensOf (withPlainBreaks text.toList) = tokens)
    (hgraph : Assembly.document tokens = .ok (some graph))
    (hdatum : graph.datum = .ok document) : Yaml.read text = .ok document := by
  rw [Yaml.read, htokens, hgraph]
  exact hdatum

theorem load_of_read {path text : String} {document : Datum} (h : Yaml.read text = .ok document) :
    load path (some text) = ofDocument path document := by
  unfold load
  dsimp only
  rw [h]

/-- A file that can be read gives the settings its document describes, and the defaults when the
document passes for null. Every other document is refused, with a report on the configuration as far
as its names are texts and its numbers are short enough. -/
theorem outcome_of_read (path : String) {text : String} {document : Datum}
    (h : Yaml.read text = .ok document) :
    (∀ s, load path (some text) = .ok s ↔
      Describes document s ∨ PassesForNull document ∧ s = {}) ∧
    (∀ fault, load path (some text) = .error fault ↔ Refuses path document fault) ∧
    ∀ fault, load path (some text) = .error fault →
      fault.category? = some .configuration ∨ fault = .unnamedSetting ∨
        fault = .unwritableNumber ∧ document.isWritable = false := by
  rw [load_of_read h]
  refine ⟨fun s => ofDocument_eq_ok, fun fault => ofDocument_eq_error, fun fault hfault => ?_⟩
  exact (ofDocument_eq_error.1 hfault).category

set_option maxRecDepth 100000 in
theorem read_fourWorkers :
    Yaml.read "max_workers: 4\n" = .ok (.mapping [(.text workersKey, .integer 4)]) := by
  have htokens : tokensOf (withPlainBreaks "max_workers: 4\n".toList) =
      [.blockMappingStart, .key, .scalar true workersKey.toList, .value, .scalar true ['4'],
        .blockEnd] := by
    decide +kernel
  have hgraph : Assembly.document [.blockMappingStart, .key, .scalar true workersKey.toList, .value,
      .scalar true ['4'], .blockEnd] = .ok (some ⟨#[⟨.mapping, .mapping [(1, 2)]⟩,
        ⟨.text, .scalar workersKey.toList⟩, ⟨.integer, .scalar ['4']⟩], 0⟩) := by
    rfl
  exact read_of_stages htokens hgraph rfl

theorem load_fourWorkers :
    Yaml.read "max_workers: 4\n" = .ok (.mapping [(.text workersKey, .integer 4)]) ∧
      load "settings.yaml" (some "max_workers: 4\n") = .ok ⟨4, 500, by decide, by decide⟩ := by
  refine ⟨read_fourWorkers, ((outcome_of_read "settings.yaml" read_fourWorkers).1 _).2 (.inl ?_)⟩
  apply Describes.mapping
  · intro key hkey
    exact .inl (names_singleton.1 hkey)
  · exact .inl ⟨[], [], rfl, not_names_nil⟩
  · refine .inr ⟨?_, rfl⟩
    rw [names_singleton, Datum.text.injEq]
    decide

set_option maxRecDepth 100000 in
theorem read_integers : Yaml.read "1: 2\n" = .ok (.mapping [(.integer 1, .integer 2)]) := by
  have htokens : tokensOf (withPlainBreaks "1: 2\n".toList) =
      [.blockMappingStart, .key, .scalar true ['1'], .value, .scalar true ['2'], .blockEnd] := by
    decide +kernel
  have hgraph : Assembly.document [.blockMappingStart, .key, .scalar true ['1'], .value,
      .scalar true ['2'], .blockEnd] = .ok (some ⟨#[⟨.mapping, .mapping [(1, 2)]⟩,
        ⟨.integer, .scalar ['1']⟩, ⟨.integer, .scalar ['2']⟩], 0⟩) := by
    rfl
  exact read_of_stages htokens hgraph rfl

set_option maxRecDepth 100000 in
theorem read_emptyList : Yaml.read "[]\n" = .ok (.list []) := by
  have htokens : tokensOf (withPlainBreaks "[]\n".toList) =
      [.flowSequenceStart, .flowSequenceEnd] := by
    decide +kernel
  have hgraph : Assembly.document [.flowSequenceStart, .flowSequenceEnd] =
      .ok (some ⟨#[⟨.sequence, .sequence []⟩], 0⟩) := by
    rfl
  exact read_of_stages htokens hgraph rfl

/-- A name that is an integer is refused without a report, and an empty list is not refused. -/
theorem load_without_report :
    (Yaml.read "1: 2\n" = .ok (.mapping [(.integer 1, .integer 2)]) ∧
      load "settings.yaml" (some "1: 2\n") = .error .unnamedSetting ∧
      Fault.unnamedSetting.category? = none) ∧
    Yaml.read "[]\n" = .ok (.list []) ∧ load "settings.yaml" (some "[]\n") = .ok {} := by
  refine ⟨⟨read_integers, ?_, rfl⟩, read_emptyList, ?_⟩
  · rw [load_of_read read_integers]
    rfl
  · rw [load_of_read read_emptyList]
    rfl

end SettingsFile

end DesignMetrics
