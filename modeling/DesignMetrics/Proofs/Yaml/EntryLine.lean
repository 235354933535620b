import DesignMetrics.Proofs.Yaml.PlainWord
import Mathlib.Data.List.ReduceOption
import Mathlib.Tactic.Set

/-!
# Tokens of lines with a key and a value

A text of lines that each give one word to another makes the tokens of one mapping. A line takes
three steps of the reader: its first word, which may be a key, the colon, which makes it one, and
its second word, which ends with the line. The mapping is opened by the first line and closed by
the end of the text.
-/

namespace DesignMetrics.Yaml

/-- A line that gives a value to a key, both of them words. -/
structure EntryLine where
  key : List Char
  value : List Char
  key_isWord : IsWord key
  value_isWord : IsWord value
  key_length_le : key.length ≤ 1024

namespace EntryLine

def text (line : EntryLine) : List Char := line.key ++ ':' :: ' ' :: (line.value ++ ['\n'])

def tokens (line : EntryLine) : List Token :=
  [.key, .scalar true line.key, .value, .scalar true line.value]

end EntryLine

namespace Layout

variable {s next : Layout} {c : Char} {word rest : List Char} {line column : Nat}

/-- One more token is read when a step leads to it and another one through it. -/
theorem tokensFrom_succ {after : Layout} (hprintable : s.rest.all isPrintable)
    (hnext : s.toNextToken = .ok next) (hnextPrintable : next.rest.all isPrintable)
    (hrest : next.rest = c :: rest) (htoken : next.token c rest = .ok after)
    (hstale : after.dropStale = .ok after) (fuel : Nat) :
    s.tokensFrom (fuel + 1) = after.tokensFrom fuel := by
  have hstep : (do (← next.token c rest).dropStale) = .ok after := by
    rw [htoken]
    exact hstale
  rw [tokensFrom, checked_of_printable hprintable, hnext]
  simp only [hrest]
  rw [checked_of_printable hnextPrintable, hstep]

theorem foldl_place_word (hword : ∀ c ∈ word, isWordChar c = true) :
    word.foldl place (line, column) = (line, column + word.length) := by
  induction word generalizing column with
  | nil => rfl
  | cons first others ih =>
    have hfirst : isWordChar first = true := hword first List.mem_cons_self
    have hplace : place (line, column) first = (line, column + 1) := by
      simp [place, isBreak_of_isWordChar hfirst, ne_of_isWordChar hfirst (d := '\ufeff') rfl]
    rw [List.foldl_cons, hplace, ih fun d hd => hword d (List.mem_cons_of_mem first hd),
      List.length_cons]
    congr 1
    omega

/-- A word starts a plain scalar, which passes all characters up to what is behind it. -/
theorem token_word (hc : isWordChar c = true) (hrest : s.rest = c :: rest)
    (hflow : s.enclosing = [])
    {expecting : Layout} (hexpect : s.expectKey = .ok expecting)
    {text passed behind : List Char} {endsLine : Bool} (hpassed : expecting.rest = passed ++ behind)
    (hplain : plainText expecting.inFlow expecting.least expecting.rest = ⟨text, endsLine, behind⟩)
    (hprintable : behind.all isPrintable) :
    s.token c rest = .ok { expecting with
      rest := behind
      index := expecting.index + passed.length
      line := (passed.foldl place (expecting.line, expecting.column)).1
      column := (passed.foldl place (expecting.line, expecting.column)).2
      keyAllowed := endsLine
      tokens := .scalar true text :: expecting.tokens } := by
  have hne : ∀ d, isWordChar d = false → c ≠ d := fun d => ne_of_isWordChar hc
  have hmarker : atMarker s.rest = false := by
    rw [hrest]
    unfold atMarker
    split
    · next h => exact absurd (List.cons.inj h).1 (hne '-' rfl)
    · next h => exact absurd (List.cons.inj h).1 (hne '.' rfl)
    · rfl
  have hinFlow : s.inFlow = false := by simp [inFlow, hflow]
  have htoken : s.token c rest = do
      let s ← s.expectKey
      let plain := plainText s.inFlow s.least s.rest
      return { ← s.emitScalar true plain.text plain.rest with keyAllowed := plain.endsLine } := by
    simp [token, hmarker, hinFlow, hne '%' rfl, hne '-' rfl, hne '.' rfl, hne '[' rfl, hne ']' rfl,
      hne '\x7b' rfl, hne '\x7d' rfl, hne ',' rfl, hne '?' rfl, hne ':' rfl, hne '*' rfl,
      hne '&' rfl, hne '!' rfl, hne '|' rfl, hne '>' rfl, hne '\'' rfl, hne '"' rfl,
      startsPlain_of_isWordChar hc]
  rw [htoken, hexpect]
  show (do
    let plain := plainText expecting.inFlow expecting.least expecting.rest
    return { ← emitScalar expecting true plain.text plain.rest with
      keyAllowed := plain.endsLine }) = _
  rw [hplain]
  show (do return { ← emitScalar expecting true text behind with keyAllowed := endsLine }) = _
  rw [emitScalar_of_printable hprintable, emitTo, moveTo_of_rest hpassed]
  rfl

theorem token_colon (hrest : s.rest = ':' :: ' ' :: rest) :
    s.token ':' (' ' :: rest) = s.value := by
  have hmarker : atMarker s.rest = false := by rw [hrest]; rfl
  have hgap : atWordEnd (' ' :: rest) = true := rfl
  simp [token, hmarker, hgap]

theorem skipBlank_word (hc : isWordChar c = true) (rest : List Char) :
    skipBlank false (c :: rest) = (false, c :: rest) := by
  simp [skipBlank, isBreak_of_isWordChar hc, ne_of_isWordChar hc (d := ' ') rfl,
    ne_of_isWordChar hc (d := '#') rfl]

theorem dropStale_eq_self (hflow : s.enclosing = [])
    (hpending : ∀ k ∈ s.pending, s.isStale k = false) : s.dropStale = .ok s := by
  obtain ⟨rest, index, line, column, indents, pending, enclosing, keyAllowed, tokens⟩ := s
  obtain rfl : enclosing = [] := hflow
  cases pending with
  | none => rfl
  | some k =>
    have hk := hpending k rfl
    simp [dropStale, pendingKeys, List.reduceOption_cons_of_some, hk]

theorem closeBehind_eq_self {behind : Nat → Bool} (h : ∀ i ∈ s.indents.head?, behind i = false) :
    s.closeBehind behind = s := by
  obtain ⟨rest, index, line, column, indents, pending, enclosing, keyAllowed, tokens⟩ := s
  cases indents with
  | nil => simp [closeBehind]
  | cons first others => simp [closeBehind, h first rfl]

/-- Without a new line nothing ends before the next token. -/
theorem toNextToken_eq (hskip : skipBlank false s.rest = (false, rest))
    (hmove : s.moveTo rest = next)
    (hstale : next.dropStale = .ok next) (hindents : ∀ i ∈ next.indents.head?, i ≤ next.column) :
    s.toNextToken = .ok next := by
  have hclose : next.closeBehind (next.column < ·) = next :=
    closeBehind_eq_self fun i hi => by simpa using hindents i hi
  have hkey : { next with keyAllowed := next.keyAllowed || (false && !next.inFlow) } = next := by
    simp
  rw [toNextToken, hskip]
  simp only [hmove, hkey, hstale]
  exact congrArg Except.ok hclose

theorem moveTo_rest (s : Layout) : s.moveTo s.rest = s := by
  have hnone : s.rest = [] ++ s.rest := rfl
  simpa using moveTo_of_rest hnone

/-! ## The three steps over a line -/

/-- At the start of the text or of a line of a mapping. -/
structure AtLineStart (s : Layout) : Prop where
  column : s.column = 0
  indents : s.indents = [] ∨ s.indents = [0]
  pending : s.pending = none
  enclosing : s.enclosing = []
  keyAllowed : s.keyAllowed = true

/-- Behind the first word of a line, which may be a key. -/
def behindKey (s : Layout) (key rest : List Char) : Layout :=
  { s with
    rest
    index := s.index + key.length
    column := key.length
    pending := some ⟨s.tokens.length, s.indents.head? == some 0, s.index, s.line, 0⟩
    keyAllowed := false
    tokens := .scalar true key :: s.tokens }

/-- The start of the mapping, which is in front of its first line. -/
def mappingStart (s : Layout) : List Token := if s.indents = [] then [.blockMappingStart] else []

/-- Behind the colon, which has made the word a key. -/
def behindColon (s : Layout) (key rest : List Char) : Layout :=
  { s with
    rest
    index := s.index + key.length + 1
    column := key.length + 1
    indents := [0]
    keyAllowed := false
    tokens := .value :: .scalar true key :: .key :: s.mappingStart ++ s.tokens }

/-- At the start of the next line. -/
def behindLine (s : Layout) (line : EntryLine) (rest : List Char) : Layout :=
  { s with
    rest
    index := s.index + line.text.length
    line := s.line + 1
    indents := [0]
    tokens := line.tokens.reverse ++ s.mappingStart ++ s.tokens }

variable {key value : List Char} {fuel : Nat}

theorem AtLineStart.le_of_mem_indents (h : s.AtLineStart) (column : Nat) :
    ∀ i ∈ s.indents.head?, i ≤ column := by
  intro i hi
  rcases h.indents with hindents | hindents
  · simp [hindents] at hi
  · rw [hindents, List.head?_cons, Option.mem_some_iff] at hi
    omega

theorem AtLineStart.behindLine (h : s.AtLineStart) (entry : EntryLine) (rest : List Char) :
    (s.behindLine entry rest).AtLineStart :=
  ⟨h.column, .inr rfl, h.pending, h.enclosing, h.keyAllowed⟩

theorem AtLineStart.dropStale_eq (h : s.AtLineStart) : s.dropStale = .ok s :=
  dropStale_eq_self h.enclosing (by simp [h.pending])

theorem AtLineStart.toNextToken_eq_self (h : s.AtLineStart)
    (hskip : skipBlank false s.rest = (false, s.rest)) : s.toNextToken = .ok s :=
  toNextToken_eq hskip s.moveTo_rest h.dropStale_eq (h.le_of_mem_indents s.column)

theorem AtLineStart.expectKey_eq (h : s.AtLineStart) : s.expectKey =
    .ok { s with
      pending := some ⟨s.tokens.length, s.indents.head? == some 0, s.index, s.line, 0⟩ } := by
  obtain ⟨rest, index, line, column, indents, pending, enclosing, keyAllowed, tokens⟩ := s
  obtain ⟨rfl, -, rfl, rfl, rfl⟩ := h
  rfl

/-- A key of at most 1024 characters is not given up on its line. -/
theorem dropStale_behindKey (h : s.AtLineStart) (hlength : key.length ≤ 1024) :
    (s.behindKey key rest).dropStale = .ok (s.behindKey key rest) := by
  refine dropStale_eq_self h.enclosing ?_
  rintro k ⟨⟩
  simp [behindKey, isStale]
  omega

/-- The first word of a line is read as a scalar that may be a key. -/
theorem tokensFrom_key (h : s.AtLineStart) (hkey : IsWord key) (hlength : key.length ≤ 1024)
    (hrest : s.rest = key ++ ':' :: ' ' :: rest) (hprintable : s.rest.all isPrintable) :
    s.tokensFrom (fuel + 1) = (s.behindKey key (':' :: ' ' :: rest)).tokensFrom fuel := by
  obtain ⟨c, others, rfl⟩ := List.exists_cons_of_ne_nil hkey.ne_nil
  have hc : isWordChar c = true := hkey.chars c List.mem_cons_self
  have hhead : s.rest = c :: (others ++ ':' :: ' ' :: rest) := hrest
  have hbehind : (':' :: ' ' :: rest).all isPrintable := by
    rw [hrest, List.all_append, Bool.and_eq_true] at hprintable
    exact hprintable.2
  have hnext : s.toNextToken = .ok s := by
    refine h.toNextToken_eq_self ?_
    rw [hhead]
    exact skipBlank_word hc _
  have hplain : plainText s.inFlow s.least s.rest =
      ⟨c :: others, false, ':' :: ' ' :: rest⟩ := by
    have hinFlow : s.inFlow = false := by simp [inFlow, h.enclosing]
    rw [hinFlow, hrest]
    exact plainText_before_colon hkey s.least
  have htoken : s.token c (others ++ ':' :: ' ' :: rest) =
      .ok (s.behindKey (c :: others) (':' :: ' ' :: rest)) := by
    rw [token_word hc hhead h.enclosing h.expectKey_eq hrest hplain hbehind]
    simp only [foldl_place_word hkey.chars, h.column, behindKey, Nat.zero_add]
  exact tokensFrom_succ hprintable hnext hprintable hhead htoken (dropStale_behindKey h hlength)
    fuel

theorem dropStale_behindColon (h : s.AtLineStart) :
    (s.behindColon key rest).dropStale = .ok (s.behindColon key rest) :=
  dropStale_eq_self h.enclosing (by simp [behindColon, h.pending])

theorem value_behindKey (h : s.AtLineStart) :
    (s.behindKey key (':' :: rest)).value = .ok (s.behindColon key rest) := by
  obtain ⟨_, index, line, column, indents, pending, enclosing, keyAllowed, tokens⟩ := s
  obtain ⟨rfl, hindents, rfl, rfl, rfl⟩ := h
  have hindents : indents = [] ∨ indents = [0] := hindents
  rcases hindents with rfl | rfl
  all_goals
    simp [value, behindKey, behindColon, confirmKey, advance, moveTo, emit, place, opensAt, inFlow,
      isBreak, mappingStart]

/-- At the colon behind it the word is known to be a key. -/
theorem tokensFrom_colon (h : s.AtLineStart) (hlength : key.length ≤ 1024)
    (hprintable : (':' :: ' ' :: rest).all isPrintable) :
    (s.behindKey key (':' :: ' ' :: rest)).tokensFrom (fuel + 1) =
      (s.behindColon key (' ' :: rest)).tokensFrom fuel := by
  have hnext : (s.behindKey key (':' :: ' ' :: rest)).toNextToken =
      .ok (s.behindKey key (':' :: ' ' :: rest)) := by
    exact toNextToken_eq rfl (moveTo_rest _) (dropStale_behindKey h hlength)
      (h.le_of_mem_indents key.length)
  exact tokensFrom_succ hprintable hnext hprintable rfl
    ((token_colon rfl).trans (value_behindKey h)) (dropStale_behindColon h) fuel

/-- Behind the space in front of the value. -/
def atValue (s : Layout) (key rest : List Char) : Layout :=
  { s.behindColon key rest with index := s.index + key.length + 2, column := key.length + 2 }

theorem token_atValue (h : s.AtLineStart) (entry : EntryLine) (hrest : StartsText rest)
    (hprintable : rest.all isPrintable) {others : List Char} (hcons : entry.value = c :: others) :
    (s.atValue entry.key (entry.value ++ '\n' :: rest)).token c (others ++ '\n' :: rest) =
      .ok (s.behindLine entry rest) := by
  set start := s.atValue entry.key (entry.value ++ '\n' :: rest) with hstart
  have hc : isWordChar c = true := entry.value_isWord.chars c (by simp [hcons])
  have hflow : start.enclosing = [] := h.enclosing
  have hhead : start.rest = c :: (others ++ '\n' :: rest) := by
    simp [hstart, atValue, behindColon, hcons]
  have hpassed : start.rest = (entry.value ++ ['\n']) ++ rest := by
    simp [hstart, atValue, behindColon]
  have hplain : plainText start.inFlow start.least start.rest = ⟨entry.value, true, rest⟩ := by
    have hinFlow : start.inFlow = false := by simp [inFlow, hflow]
    rw [hinFlow]
    exact plainText_before_break entry.value_isWord hrest
  have hplace : (entry.value ++ ['\n']).foldl place (start.line, start.column) =
      (s.line + 1, 0) := by
    rw [List.foldl_append, foldl_place_word entry.value_isWord.chars]
    rfl
  -- no key may start behind a colon
  have hexpect : start.expectKey = .ok start := rfl
  rw [token_word hc hhead hflow hexpect hpassed hplain hprintable, hplace]
  simp [hstart, atValue, behindColon, behindLine, EntryLine.text, EntryLine.tokens, h.column,
    h.keyAllowed]
  omega

/-- The second word of a line is its value, and ends with the line. -/
theorem tokensFrom_value (h : s.AtLineStart) (entry : EntryLine) (hrest : StartsText rest)
    (hprintable : (' ' :: (entry.value ++ '\n' :: rest)).all isPrintable) :
    (s.behindColon entry.key (' ' :: (entry.value ++ '\n' :: rest))).tokensFrom (fuel + 1) =
      (s.behindLine entry rest).tokensFrom fuel := by
  obtain ⟨c, others, hcons⟩ := List.exists_cons_of_ne_nil entry.value_isWord.ne_nil
  have hc : isWordChar c = true := entry.value_isWord.chars c (by simp [hcons])
  have hmove : (s.behindColon entry.key (' ' :: (entry.value ++ '\n' :: rest))).moveTo
      (entry.value ++ '\n' :: rest) = s.atValue entry.key (entry.value ++ '\n' :: rest) := by
    have hgap : (s.behindColon entry.key (' ' :: (entry.value ++ '\n' :: rest))).rest =
        [' '] ++ (entry.value ++ '\n' :: rest) := rfl
    rw [moveTo_of_rest hgap]
    simp [behindColon, atValue, place, isBreak]
  have hstale : (s.atValue entry.key (entry.value ++ '\n' :: rest)).dropStale =
      .ok (s.atValue entry.key (entry.value ++ '\n' :: rest)) :=
    dropStale_eq_self h.enclosing (by simp [atValue, behindColon, h.pending])
  have hskip : skipBlank false (' ' :: (entry.value ++ '\n' :: rest)) =
      (false, entry.value ++ '\n' :: rest) := by
    rw [hcons]
    exact skipBlank_word hc (others ++ '\n' :: rest)
  have hnext := toNextToken_eq hskip hmove hstale (by simp [atValue, behindColon])
  have hvalue : (entry.value ++ '\n' :: rest).all isPrintable = true := by
    rw [List.all_cons, Bool.and_eq_true] at hprintable
    exact hprintable.2
  have hbehind : rest.all isPrintable = true := by
    rw [List.all_append, List.all_cons, Bool.and_eq_true, Bool.and_eq_true] at hvalue
    exact hvalue.2.2
  refine tokensFrom_succ hprintable hnext hvalue ?_ (token_atValue h entry hrest hbehind hcons)
    (h.behindLine entry rest).dropStale_eq fuel
  simp [atValue, behindColon, hcons]

/-! ## Whole lines -/

theorem mappingStart_behindLine (entry : EntryLine) (rest : List Char) :
    (s.behindLine entry rest).mappingStart = [] :=
  if_neg (List.cons_ne_nil 0 [])

theorem reverse_mappingStart (s : Layout) : s.mappingStart.reverse = s.mappingStart := by
  unfold mappingStart
  split <;> rfl

theorem tokensFrom_line (h : s.AtLineStart) (entry : EntryLine) (hrest : StartsText rest)
    (htext : s.rest = entry.text ++ rest) (hprintable : s.rest.all isPrintable) :
    s.tokensFrom (fuel + 3) = (s.behindLine entry rest).tokensFrom fuel := by
  have hkey : s.rest = entry.key ++ ':' :: ' ' :: (entry.value ++ '\n' :: rest) := by
    simpa [EntryLine.text] using htext
  have hcolon : (':' :: ' ' :: (entry.value ++ '\n' :: rest)).all isPrintable = true := by
    rw [hkey, List.all_append, Bool.and_eq_true] at hprintable
    exact hprintable.2
  have hgap : (' ' :: (entry.value ++ '\n' :: rest)).all isPrintable = true := by
    rw [List.all_cons, Bool.and_eq_true] at hcolon
    exact hcolon.2
  rw [tokensFrom_key h entry.key_isWord entry.key_length_le hkey hprintable,
    tokensFrom_colon h entry.key_length_le hcolon, tokensFrom_value h entry hrest hgap]

/-- At the end of the text the mapping ends. -/
theorem tokensFrom_end (h : s.AtLineStart) (hopen : s.indents = [0]) (hrest : s.rest = []) :
    s.tokensFrom (fuel + 1) = s.tokens.reverse ++ [.blockEnd] := by
  have hnext : s.toNextToken = .ok s := h.toNextToken_eq_self (by rw [hrest]; rfl)
  have hfinish : s.finish = .ok { s with indents := [], tokens := .blockEnd :: s.tokens } := by
    simp [finish, closeBehind, inFlow, dropPending, h.enclosing, h.pending, hopen]
  rw [tokensFrom, checked_of_printable (by simp [hrest]), hnext]
  simp only [hrest, hfinish, List.reverse_cons]

end Layout

namespace EntryLine

theorem exists_text_eq_cons (line : EntryLine) :
    ∃ c rest, line.text = c :: rest ∧ isWordChar c = true := by
  obtain ⟨c, rest, hcons⟩ := List.exists_cons_of_ne_nil line.key_isWord.ne_nil
  exact ⟨c, _, by rw [text, hcons, List.cons_append], line.key_isWord.chars c (by simp [hcons])⟩

theorem startsText_flatMap (lines : List EntryLine) : StartsText (lines.flatMap text) := by
  cases lines with
  | nil => simp [StartsText]
  | cons first others =>
    obtain ⟨c, rest, htext, hc⟩ := first.exists_text_eq_cons
    rw [List.flatMap_cons, htext]
    rintro d ⟨⟩
    exact ⟨ne_of_isWordChar hc rfl, isBreak_of_isWordChar hc⟩

theorem all_isPrintable_text (line : EntryLine) : line.text.all isPrintable = true := by
  have hcolon : isPrintable ':' = true := by decide
  have hspace : isPrintable ' ' = true := by decide
  have hbreak : isPrintable '\n' = true := by decide
  rw [text, List.all_append, line.key_isWord.all_isPrintable, List.all_cons, List.all_cons,
    List.all_append, line.value_isWord.all_isPrintable]
  simp [hcolon, hspace, hbreak]

theorem all_isPrintable_flatMap (lines : List EntryLine) :
    (lines.flatMap text).all isPrintable = true := by
  rw [List.all_flatMap, List.all_eq_true]
  exact fun line _ => line.all_isPrintable_text

theorem three_le_length_text (line : EntryLine) : 3 ≤ line.text.length := by
  simp only [text, List.length_append, List.length_cons, List.length_nil]
  omega

theorem three_mul_length_le (lines : List EntryLine) :
    3 * lines.length ≤ (lines.flatMap text).length := by
  induction lines with
  | nil => simp
  | cons first others ih =>
    have hfirst := first.three_le_length_text
    rw [List.flatMap_cons, List.length_append, List.length_cons]
    omega

end EntryLine

theorem withPlainBreaks_eq_self {s : List Char} (h : '\r' ∉ s) : withPlainBreaks s = s := by
  induction s with
  | nil => rfl
  | cons c rest ih =>
    rw [List.mem_cons, not_or] at h
    have hc : c ≠ '\r' := Ne.symm h.1
    rw [withPlainBreaks, if_neg hc, ih h.2]
    exact fun _ heq => absurd heq hc

theorem withPlainBreaks_lines (lines : List EntryLine) :
    withPlainBreaks (lines.flatMap EntryLine.text) = lines.flatMap EntryLine.text := by
  refine withPlainBreaks_eq_self ?_
  rw [List.mem_flatMap]
  rintro ⟨line, -, hmem⟩
  have hword : ∀ word, IsWord word → '\r' ∉ word := fun word hword hmem =>
    absurd (hword.chars '\r' hmem) (by decide)
  simp [EntryLine.text, hword _ line.key_isWord, hword _ line.value_isWord] at hmem

/-- The tokens of the lines of a mapping. -/
theorem Layout.tokensFrom_lines {s : Layout} (h : s.AtLineStart) (lines : List EntryLine)
    (hopen : s.indents = [0] ∨ lines ≠ []) (htext : s.rest = lines.flatMap EntryLine.text)
    {fuel : Nat} (hfuel : 3 * lines.length < fuel) :
    s.tokensFrom fuel =
      s.tokens.reverse ++ s.mappingStart ++ lines.flatMap EntryLine.tokens ++ [.blockEnd] := by
  induction lines generalizing s fuel with
  | nil =>
    have hindents := hopen.resolve_right (by simp)
    obtain ⟨fuel, rfl⟩ : ∃ n, fuel = n + 1 := ⟨fuel - 1, by omega⟩
    rw [tokensFrom_end h hindents htext]
    simp [mappingStart, hindents]
  | cons line others ih =>
    rw [List.length_cons] at hfuel
    obtain ⟨fuel, rfl⟩ : ∃ n, fuel = n + 3 := ⟨fuel - 3, by omega⟩
    have hprintable : s.rest.all isPrintable = true := by
      rw [htext]
      exact EntryLine.all_isPrintable_flatMap (line :: others)
    have hothers : 3 * others.length < fuel := by omega
    have hbehind := h.behindLine line (others.flatMap EntryLine.text)
    rw [tokensFrom_line h line (EntryLine.startsText_flatMap others) htext hprintable,
      ih hbehind (.inl rfl) rfl hothers]
    -- only the first line opens the mapping
    rw [mappingStart_behindLine]
    simp [Layout.behindLine, reverse_mappingStart]

/-- Lines that give values to keys are one mapping. -/
theorem tokensOf_lines {lines : List EntryLine} (hne : lines ≠ []) :
    tokensOf (lines.flatMap EntryLine.text) =
      .blockMappingStart :: lines.flatMap EntryLine.tokens ++ [.blockEnd] := by
  have hmark : (lines.flatMap EntryLine.text).head? ≠ some '\ufeff' := by
    obtain ⟨first, others, rfl⟩ := List.exists_cons_of_ne_nil hne
    obtain ⟨c, rest, htext, hc⟩ := first.exists_text_eq_cons
    rw [List.flatMap_cons, htext]
    exact fun heq => ne_of_isWordChar hc (d := '\ufeff') rfl (Option.some.inj heq)
  have hstart : ({ rest := lines.flatMap EntryLine.text } : Layout).AtLineStart :=
    ⟨rfl, .inl rfl, rfl, rfl, rfl⟩
  rw [tokensOf, readable_of_printable (EntryLine.all_isPrintable_flatMap lines), if_neg hmark]
  exact Layout.tokensFrom_lines hstart lines (.inr hne) rfl
    (Nat.lt_succ_of_le (EntryLine.three_mul_length_le lines))

end DesignMetrics.Yaml
