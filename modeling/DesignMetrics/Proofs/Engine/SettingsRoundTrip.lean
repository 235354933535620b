import DesignMetrics.Proofs.Engine.SettingsFile
import DesignMetrics.Proofs.Yaml.EntryMapping
import DesignMetrics.Proofs.Yaml.Numeral

/-!
# Saved settings are loaded unchanged

A saved file has two lines, each with the name of a setting and the decimal digits of its value. The
reader takes them for the mapping of the settings, and that mapping for the settings themselves.
-/

namespace DesignMetrics

namespace EngineSettings

theorem toEntries_onlySettings (s : EngineSettings) : OnlySettings s.toEntries := by
  intro key hkey
  obtain ⟨value, hmem⟩ := hkey
  simp only [toEntries, List.mem_cons, Prod.mk.injEq, List.not_mem_nil, or_false] at hmem
  exact hmem.imp And.left And.left

theorem ofMapping_toEntries (s : EngineSettings) : ofMapping s.toEntries = .ok s := by
  have hworkers : Gives s.toEntries workersKey (.integer s.maxWorkers) := by
    refine ⟨[], _, rfl, ?_⟩
    rw [names_singleton, Datum.text.injEq]
    decide
  have hthreshold : Gives s.toEntries thresholdKey (.integer s.parallelThreshold) :=
    ⟨[(.text workersKey, .integer s.maxWorkers)], [], rfl, not_names_nil⟩
  exact ofMapping_eq_ok.2 (.mapping s.toEntries_onlySettings (.inl hworkers) (.inl hthreshold))

end EngineSettings

namespace SettingsFile

open EngineSettings Yaml

variable {n : Nat} {name : List Char}

/-- The line of a setting. -/
def settingLine (name : List Char) (hname : IsWord name) (hlength : name.length ≤ 1024) (n : Nat) :
    EntryLine where
  key := name
  value := Nat.toDigits 10 n
  key_isWord := hname
  value_isWord := (isNumeral_toDigits n).isWord
  key_length_le := hlength

def workersLine (n : Nat) : EntryLine :=
  settingLine workersKey.toList (isWord_of_all (by decide) (by decide)) (by decide) n

def thresholdLine (n : Nat) : EntryLine :=
  settingLine thresholdKey.toList (isWord_of_all (by decide) (by decide)) (by decide) n

theorem settingLine_gives {hname : IsWord name} {hlength : name.length ≤ 1024}
    (hkind : Kind.ofPlain name = .text) (hn : Text.isWritable n = true) :
    (settingLine name hname hlength n).Gives n where
  key_kind := hkind
  value_kind := (isNumeral_toDigits n).ofPlain_eq
  value_datum := datum_toDigits hn

theorem toList_toString (n : Nat) : (toString (n : Int)).toList = Nat.toDigits 10 n := by
  show (toString n).toList = _
  rw [Nat.toString_eq_ofList_toDigits, String.toList_ofList]

theorem toList_render {s : EngineSettings} {workers threshold : Nat}
    (hworkers : s.maxWorkers = workers) (hthreshold : s.parallelThreshold = threshold) :
    (render s).toList = [workersLine workers, thresholdLine threshold].flatMap EntryLine.text := by
  have hcolon : (": " : String).toList = [':', ' '] := rfl
  have hbreak : ("\n" : String).toList = ['\n'] := rfl
  simp only [render, hworkers, hthreshold, String.toList_append, toList_toString, hcolon, hbreak,
    List.flatMap_cons, List.flatMap_nil, EntryLine.text, workersLine, thresholdLine, settingLine,
    List.append_assoc, List.cons_append, List.nil_append, List.append_nil]

/-- Saved settings are read as the mapping of their names to their values. -/
theorem read_render {s : EngineSettings} (hworkers : Text.isWritable s.maxWorkers = true)
    (hthreshold : Text.isWritable s.parallelThreshold = true) :
    Yaml.read (render s) = .ok (.mapping s.toEntries) := by
  have hnonneg : 0 ≤ s.maxWorkers := Int.le_trans (by decide) s.one_le_maxWorkers
  obtain ⟨workers, hworkersEq⟩ := Int.eq_ofNat_of_zero_le hnonneg
  obtain ⟨threshold, hthresholdEq⟩ := Int.eq_ofNat_of_zero_le s.parallelThreshold_nonneg
  -- no value is negative, so that each is written by its digits alone
  rw [toEntries, hworkersEq, hthresholdEq]
  rw [hworkersEq] at hworkers
  rw [hthresholdEq] at hthreshold
  have hfirst : (workersLine workers).Gives workers := settingLine_gives (by decide) hworkers
  have hsecond : (thresholdLine threshold).Gives threshold :=
    settingLine_gives (by decide) hthreshold
  have hne : (workersLine workers).key ≠ (thresholdLine threshold).key := by
    show workersKey.toList ≠ thresholdKey.toList
    decide
  exact read_pair hfirst hsecond hne (toList_render hworkersEq hthresholdEq)

/-- Settings whose numbers can be written are saved, and the file gives the same settings when it is
loaded. So does the mapping of any settings. -/
theorem load_save (path : String) (s : EngineSettings) :
    (Text.isWritable s.maxWorkers = true → Text.isWritable s.parallelThreshold = true →
      ∃ text, save s = .ok text ∧ load path (some text) = .ok s) ∧
    ofMapping s.toEntries = .ok s := by
  refine ⟨fun hworkers hthreshold => ⟨render s, ?_, ?_⟩, ofMapping_toEntries s⟩
  · rw [save, hworkers, hthreshold]
    rfl
  · rw [load_of_read (read_render hworkers hthreshold), ofDocument_mapping, ofMapping_toEntries]

/-- Numbers beyond any machine word are no exception. -/
theorem load_save_largeThreshold :
    ∃ text, save ⟨8, 1000000000000000000000000, by decide, by decide⟩ = .ok text ∧
      load "settings.yaml" (some text) =
        .ok ⟨8, 1000000000000000000000000, by decide, by decide⟩ :=
  (load_save "settings.yaml" ⟨8, 1000000000000000000000000, by decide, by decide⟩).1
    (by decide +kernel) (by decide +kernel)

end SettingsFile

end DesignMetrics
