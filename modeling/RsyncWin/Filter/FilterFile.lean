import Mathlib.Data.List.TakeWhile
import RsyncWin.Filter.Normal
import RsyncWin.Lib.Excepts

/-!
# Files of patterns (`Rule::parse_filter_file`)

A file is a list of records. A record that begins with a marker is taken for an explicit
rule, whatever follows the marker, so a file of plain names is read name by name only as
long as no name begins with one.
-/

namespace RsyncWin

open ByteString

/-! ## Trimmed texts -/

theorem dropWhile_eq_self {text : Text} (h : ∀ ch ∈ text, ¬ isWhitespace ch = true) :
    text.dropWhile isWhitespace = text := by
  cases text with
  | nil => rfl
  | cons ch rest => exact List.dropWhile_cons_of_neg (h ch List.mem_cons_self)

theorem trim_eq_self {text : Text} (h : ∀ ch ∈ text, ¬ isWhitespace ch = true) :
    trim text = text := by
  unfold trim trimEnd trimStart
  rw [dropWhile_eq_self h, dropWhile_eq_self, List.reverse_reverse]
  intro ch hmem
  exact h ch (List.mem_reverse.mp hmem)

/-- Whitespace at the end does not count. -/
theorem trim_concat {ch : Char} (h : isWhitespace ch = true) (text : Text) :
    trim (text ++ [ch]) = trim text := by
  unfold trim trimStart
  rw [List.dropWhile_append]
  split
  · rename_i hempty
    rw [List.isEmpty_iff] at hempty
    rw [hempty, List.dropWhile_cons_of_pos h, List.dropWhile_nil]
  · unfold trimEnd
    rw [List.reverse_append, List.reverse_singleton, List.singleton_append,
      List.dropWhile_cons_of_pos h]

/-! ## Records -/

/-- The records of a file, read as text. -/
def fileRecords (content : Bytes) (from0 : Bool) : Option (List Text) :=
  if from0 then (content.splitOn 0).mapM utf8Chars
  else (utf8Chars content).map (·.splitOn '\n')

/-- The word of a record that is neither blank nor a comment. -/
def recordWord (record : Text) : Option Text :=
  if trim record = [] ∨ (trim record).head? = some '#' then none else some (trim record)

/-- A blank record, a comment, or a single word. -/
def PlainRecord (record : Text) : Prop :=
  ∀ word, recordWord record = some word →
    (∀ ch ∈ word, ¬ isWhitespace ch = true) ∧ word ≠ ['!'] ∧ word.head? ≠ some '\\'

theorem word_ne_nil {record word : Text} (h : recordWord record = some word) : word ≠ [] := by
  unfold recordWord at h
  split at h
  · cases h
  · rename_i hword
    obtain rfl : trim record = word := Option.some.inj h
    exact fun hnil => hword (Or.inl hnil)

/-- Of plain records the code makes what they say. -/
theorem normalizeFilterRecord_plain {record : Text} (h : PlainRecord record) :
    normalizeFilterRecord record = recordWord record := by
  unfold normalizeFilterRecord
  by_cases hword : trim record = [] ∨ (trim record).head? = some '#'
  · unfold recordWord
    rw [if_pos hword]
    split
    · rfl
    · rfl
    · rename_i htrim
      rw [htrim] at hword
      exact absurd hword (by simp)
    · rename_i htrim
      rw [htrim] at hword
      exact absurd hword (by simp)
    · rename_i hnil hcomment _ _
      rcases hword with hword | hword
      · exact absurd hword hnil
      · obtain ⟨rest, hrest⟩ := List.head?_eq_some_iff.mp hword
        exact absurd hrest (hcomment rest)
  · have hrecord : recordWord record = some (trim record) := if_neg hword
    rw [hrecord]
    have hback := (h _ hrecord).2.2
    split
    · rename_i htrim
      exact absurd (Or.inl htrim) hword
    · rename_i htrim
      exact absurd (Or.inr (by rw [htrim]; rfl)) hword
    · rename_i htrim
      rw [htrim] at hback
      exact absurd rfl hback
    · rename_i htrim
      rw [htrim] at hback
      exact absurd rfl hback
    · rfl

theorem normalizeFilterRecord_stripped (record : Text) :
    normalizeFilterRecord ((stripSuffix ['\r'] record).getD record) =
      normalizeFilterRecord record := by
  unfold stripSuffix
  split
  · rename_i hsuffix
    obtain ⟨front, rfl⟩ := List.isSuffixOf_iff_suffix.mp hsuffix
    rw [List.length_append, Nat.add_sub_cancel, List.take_left, Option.getD_some]
    unfold normalizeFilterRecord
    rw [trim_concat (by decide)]
  · rfl

/-! ## The records that the code sees -/

theorem utf8Record_some {record : Bytes} {text : Text} (h : utf8Chars record = some text)
    (offset : Nat) : utf8Record offset record = .ok text := by
  unfold utf8Record
  rw [h]

theorem utf8Record_none {record : Bytes} (h : utf8Chars record = none) (offset : Nat) :
    ∃ e, utf8Record offset record = .error e := by
  unfold utf8Record
  rw [h]
  exact ⟨_, rfl⟩

theorem normalizeFilterRecord_nil : normalizeFilterRecord [] = none := by decide

theorem nulRecords_some {chunks : List Bytes} {texts : List Text}
    (h : chunks.mapM utf8Chars = some texts) (offset : Nat) :
    ∃ records, nulRecords offset chunks = .ok records ∧
      records.filterMap normalizeFilterRecord = texts.filterMap normalizeFilterRecord := by
  induction chunks generalizing offset texts with
  | nil =>
      obtain rfl : [] = texts := Option.some.inj h
      exact ⟨[], rfl, rfl⟩
  | cons chunk chunks ih =>
      rw [List.mapM_cons] at h
      obtain ⟨text, htext, h⟩ := Option.bind_eq_some_iff.mp h
      obtain ⟨rest, hrest, h⟩ := Option.bind_eq_some_iff.mp h
      obtain rfl : text :: rest = texts := Option.some.inj h
      rw [nulRecords]
      by_cases hchunk : chunk = []
      · subst hchunk
        obtain rfl : [] = text := Option.some.inj htext
        obtain ⟨records, hrecords, hsame⟩ := ih hrest (offset + 1)
        refine ⟨records, (if_pos rfl).trans hrecords, ?_⟩
        rw [hsame, List.filterMap_cons_none normalizeFilterRecord_nil]
      · obtain ⟨records, hrecords, hsame⟩ := ih hrest (offset + chunk.length + 1)
        refine ⟨text :: records, ?_, ?_⟩
        · rw [if_neg hchunk, utf8Record_some htext, hrecords]
          rfl
        · rw [List.filterMap_cons, List.filterMap_cons, hsame]

theorem nulRecords_none {chunks : List Bytes} (h : chunks.mapM utf8Chars = none) (offset : Nat) :
    ∃ e, nulRecords offset chunks = .error e := by
  induction chunks generalizing offset with
  | nil => cases h
  | cons chunk chunks ih =>
      rw [nulRecords]
      cases htext : utf8Chars chunk with
      | none =>
          obtain ⟨e, he⟩ := utf8Record_none htext offset
          have hchunk : chunk ≠ [] := by
            rintro rfl
            cases htext
          rw [if_neg hchunk, he]
          exact ⟨e, rfl⟩
      | some text =>
          have hrest : chunks.mapM utf8Chars = none := by
            rw [List.mapM_cons, htext] at h
            cases hrest : chunks.mapM utf8Chars with
            | none => rfl
            | some texts =>
                rw [hrest] at h
                cases h
          by_cases hchunk : chunk = []
          · rw [if_pos hchunk]
            exact ih hrest (offset + 1)
          · obtain ⟨e, he⟩ := ih hrest (offset + chunk.length + 1)
            rw [if_neg hchunk, utf8Record_some htext, he]
            exact ⟨e, rfl⟩

/-- With a NUL in a file of lines there are no records, and without one they are those
of the file up to what `normalizeFilterRecord` makes of them. -/
theorem parseFilterRecords_some {content : Bytes} {from0 : Bool} {texts : List Text}
    (h : fileRecords content from0 = some texts) (hnul : from0 = false → 0 ∉ content) :
    ∃ records, parseFilterRecords content from0 = .ok records ∧
      records.filterMap normalizeFilterRecord = texts.filterMap normalizeFilterRecord := by
  unfold fileRecords at h
  unfold parseFilterRecords
  cases from0 with
  | true => exact nulRecords_some h 0
  | false =>
      obtain ⟨text, htext, rfl⟩ := Option.map_eq_some_iff.mp h
      rw [if_neg Bool.false_ne_true, if_neg (hnul rfl), utf8Record_some htext]
      refine ⟨_, rfl, ?_⟩
      rw [List.filterMap_map]
      exact List.filterMap_congr fun record _ => normalizeFilterRecord_stripped record

theorem parseFilterRecords_none {content : Bytes} {from0 : Bool}
    (h : fileRecords content from0 = none ∨ (from0 = false ∧ 0 ∈ content)) :
    ∃ e, parseFilterRecords content from0 = .error e := by
  unfold parseFilterRecords
  cases from0 with
  | true =>
      have hnone : fileRecords content true = none := h.resolve_right (fun h => nomatch h.1)
      exact nulRecords_none hnone 0
  | false =>
      rw [if_neg Bool.false_ne_true]
      by_cases hnul : 0 ∈ content
      · rw [if_pos hnul]
        exact ⟨_, rfl⟩
      · rw [if_neg hnul]
        have hnone : (utf8Chars content).map (·.splitOn '\n') = none :=
          h.resolve_right fun h => hnul h.2
        obtain ⟨e, he⟩ := utf8Record_none (Option.map_eq_none_iff.mp hnone) 0
        rw [he]
        exact ⟨e, rfl⟩

/-! ## Words that are rules -/

def markers : List Char := ['+', '-', 'H', 'S', 'P', 'R', '!', '.', ':']

theorem shortAction_isSome_iff (ch : Char) : (shortAction ch).isSome = true ↔ ch ∈ markers := by
  unfold shortAction markers
  simp only [List.mem_cons, List.not_mem_nil, or_false]
  repeat' split
  all_goals simp_all

/-- A name that is read as a pattern: it begins with no marker, and it names something. -/
def PlainName (word : Text) : Prop :=
  (∀ first ∈ word.head?, first ∉ markers) ∧ ∃ ch ∈ word, ¬ IsSeparator ch

theorem splitOnce_whitespace {word : Text} (h : ∀ ch ∈ word, ¬ isWhitespace ch = true) :
    splitOnce isWhitespace word = none := by
  unfold splitOnce
  have hrest : word.dropWhile (fun ch => !isWhitespace ch) = [] := by
    refine List.dropWhile_eq_nil_iff.mpr fun ch hmem => ?_
    rw [Bool.not_eq_true']
    exact Bool.eq_false_iff.mpr (h ch hmem)
  rw [List.span_eq_takeWhile_dropWhile, hrest]

theorem startsWithExplicitRule_iff {word : Text} (h : ∀ ch ∈ word, ¬ isWhitespace ch = true) :
    startsWithExplicitRule word = true ↔ ∃ first ∈ word.head?, first ∈ markers := by
  unfold startsWithExplicitRule
  cases word with
  | nil => simp
  | cons first rest =>
      dsimp only
      rw [splitOnce_whitespace h, Bool.or_false, shortAction_isSome_iff]
      simp

/-- Behind a marker the word is a rule without a pattern. -/
theorem parseRecord_marker {word : Text} (defaultAction : RuleAction)
    (h : ∀ ch ∈ word, ¬ isWhitespace ch = true) (hbang : word ≠ ['!'])
    (hmarker : ∃ first ∈ word.head?, first ∈ markers) :
    parseRecord defaultAction word = .error .missingPattern := by
  unfold parseRecord
  rw [if_pos ((startsWithExplicitRule_iff h).mpr hmarker)]
  have hne : word ≠ [] := by
    rintro rfl
    obtain ⟨first, hfirst, -⟩ := hmarker
    cases hfirst
  unfold Rule.parseFilter
  simp only
  rw [trim_eq_self h, if_neg hne, if_neg hbang]
  unfold splitRuleHead
  rw [splitOnce_whitespace h]
  rfl

theorem parseRecord_name {word : Text} (defaultAction : RuleAction)
    (h : ∀ ch ∈ word, ¬ isWhitespace ch = true)
    (hmarker : ¬ ∃ first ∈ word.head?, first ∈ markers) :
    parseRecord defaultAction word = Rule.new defaultAction word := by
  unfold parseRecord
  rw [if_neg]
  rw [startsWithExplicitRule_iff h]
  exact hmarker

theorem new_ok_iff {word : Text} (action : RuleAction) (h : ∀ ch ∈ word, ¬ isWhitespace ch = true)
    (hne : word ≠ []) :
    (∃ rule, Rule.new action word = .ok rule) ↔ ∃ ch ∈ word, ¬ IsSeparator ch := by
  rw [← parse_ok_iff (trim_eq_self h) hne]
  unfold Rule.new
  cases Pattern.parse word with
  | error e =>
      constructor
      · rintro ⟨rule, hrule⟩
        cases hrule
      · rintro ⟨p, hp⟩
        cases hp
  | ok p => exact ⟨fun _ => ⟨p, rfl⟩, fun _ => ⟨_, rfl⟩⟩

/-- Whether a word becomes the rule that its name stands for. -/
theorem parseRecord_ok_iff {word : Text} (defaultAction : RuleAction)
    (h : ∀ ch ∈ word, ¬ isWhitespace ch = true) (hbang : word ≠ ['!']) (hne : word ≠ []) :
    (∃ rule, parseRecord defaultAction word = .ok rule) ↔ PlainName word := by
  by_cases hmarker : ∃ first ∈ word.head?, first ∈ markers
  · rw [parseRecord_marker defaultAction h hbang hmarker]
    constructor
    · rintro ⟨rule, hrule⟩
      cases hrule
    · rintro ⟨hnone, -⟩
      obtain ⟨first, hfirst, hmem⟩ := hmarker
      exact absurd hmem (hnone first hfirst)
  · rw [parseRecord_name defaultAction h hmarker, new_ok_iff defaultAction h hne]
    unfold PlainName
    push Not at hmarker
    exact ⟨fun hname => ⟨hmarker, hname⟩, And.right⟩

/-! ## Files -/

/-- The words of plain records are what the code parses one by one. -/
theorem parseFilterFile_eq {content : Bytes} {from0 : Bool} {records : List Text}
    (defaultAction : RuleAction) (h : fileRecords content from0 = some records)
    (hnul : from0 = false → 0 ∉ content) (hplain : ∀ record ∈ records, PlainRecord record) :
    Rule.parseFilterFile content from0 defaultAction =
      (records.filterMap recordWord).mapM (parseRecord defaultAction) := by
  obtain ⟨seen, hseen, hsame⟩ := parseFilterRecords_some h hnul
  unfold Rule.parseFilterFile
  rw [hseen]
  show (seen.filterMap normalizeFilterRecord).mapM (parseRecord defaultAction) = _
  rw [hsame, List.filterMap_congr fun record hmem =>
    normalizeFilterRecord_plain (hplain record hmem)]

/-- A file of plain names becomes the list of its patterns just if it is text, a file of
lines has no NUL in it, and each name is one that is read as a pattern. -/
theorem parseFilterFile_plain_iff (content : Bytes) (from0 : Bool) (defaultAction : RuleAction)
    (hplain : ∀ records, fileRecords content from0 = some records →
      ∀ record ∈ records, PlainRecord record) :
    (∃ records rules, fileRecords content from0 = some records ∧
      (records.filterMap recordWord).mapM (Rule.new defaultAction) = .ok rules ∧
      Rule.parseFilterFile content from0 defaultAction = .ok rules) ↔
      ∃ records, fileRecords content from0 = some records ∧ (from0 = false → 0 ∉ content) ∧
        ∀ word ∈ records.filterMap recordWord, PlainName word := by
  have hword : ∀ records, fileRecords content from0 = some records →
      ∀ word ∈ records.filterMap recordWord,
        (∀ ch ∈ word, ¬ isWhitespace ch = true) ∧ word ≠ ['!'] ∧ word ≠ [] := by
    intro records hrecords word hmem
    obtain ⟨record, hrecord, hword⟩ := List.mem_filterMap.mp hmem
    obtain ⟨hspace, hbang, -⟩ := hplain records hrecords record hrecord word hword
    exact ⟨hspace, hbang, word_ne_nil hword⟩
  constructor
  · rintro ⟨records, rules, hrecords, -, hparse⟩
    have hnul : from0 = false → 0 ∉ content := by
      intro hfrom hzero
      obtain ⟨e, he⟩ := parseFilterRecords_none (Or.inr ⟨hfrom, hzero⟩)
      unfold Rule.parseFilterFile at hparse
      rw [he] at hparse
      cases hparse
    refine ⟨records, hrecords, hnul, fun word hmem => ?_⟩
    obtain ⟨hspace, hbang, hne⟩ := hword records hrecords word hmem
    rw [parseFilterFile_eq defaultAction hrecords hnul (hplain records hrecords)] at hparse
    rw [← parseRecord_ok_iff defaultAction hspace hbang hne]
    exact except_mapM_ok_iff.mp ⟨rules, hparse⟩ word hmem
  · rintro ⟨records, hrecords, hnul, hnames⟩
    have hparse := parseFilterFile_eq defaultAction hrecords hnul (hplain records hrecords)
    obtain ⟨rules, hrules⟩ : ∃ rules,
        (records.filterMap recordWord).mapM (parseRecord defaultAction) = .ok rules := by
      refine except_mapM_ok_iff.mpr fun word hmem => ?_
      obtain ⟨hspace, hbang, hne⟩ := hword records hrecords word hmem
      exact (parseRecord_ok_iff defaultAction hspace hbang hne).mpr (hnames word hmem)
    refine ⟨records, rules, hrecords, ?_, hparse.trans hrules⟩
    rw [← hrules]
    refine (except_mapM_congr fun word hmem => ?_).symm
    refine parseRecord_name defaultAction (hword records hrecords word hmem).1 ?_
    rintro ⟨first, hfirst, hmarker⟩
    exact (hnames word hmem).1 first hfirst hmarker

theorem plainRecord_of_decide {record : Text}
    (h : (recordWord record).all (fun word => word.all (fun ch => !isWhitespace ch) &&
      word != ['!'] && word.head? != some '\\') = true) : PlainRecord record := by
  intro word hword
  rw [hword, Option.all_some] at h
  simp only [Bool.and_eq_true, List.all_eq_true, Bool.not_eq_true', bne_iff_ne] at h
  exact ⟨fun ch hmem => Bool.eq_false_iff.mp (h.1.1 ch hmem), h.1.2, h.2⟩

/-- Two names on lines of their own. -/
theorem parseFilterFile_plain_iff_two :
    (∃ records rules, fileRecords [97, 10, 98] false = some records ∧
      (records.filterMap recordWord).mapM (Rule.new .exclude) = .ok rules ∧
      Rule.parseFilterFile [97, 10, 98] false .exclude = .ok rules) ↔
      ∃ records, fileRecords [97, 10, 98] false = some records ∧
        (false = false → 0 ∉ ([97, 10, 98] : Bytes)) ∧
        ∀ word ∈ records.filterMap recordWord, PlainName word := by
  refine parseFilterFile_plain_iff _ false .exclude fun records hrecords record hmem => ?_
  have hfile : fileRecords [97, 10, 98] false = some [['a'], ['b']] := by decide +kernel
  obtain rfl : [['a'], ['b']] = records := Option.some.inj (hfile.symm.trans hrecords)
  refine plainRecord_of_decide ?_
  rcases List.mem_pair.mp hmem with rfl | rfl
  · decide
  · decide

/-- A file that excludes `README` is no file of rules. -/
theorem parseFilterFile_readme :
    (∀ records, fileRecords [82, 69, 65, 68, 77, 69] false = some records →
      ∀ record ∈ records, PlainRecord record) ∧
    ¬ ∃ records rules, fileRecords [82, 69, 65, 68, 77, 69] false = some records ∧
      (records.filterMap recordWord).mapM (Rule.new .exclude) = .ok rules ∧
      Rule.parseFilterFile [82, 69, 65, 68, 77, 69] false .exclude = .ok rules := by
  have hfile : fileRecords [82, 69, 65, 68, 77, 69] false = some ["README".toList] := by
    decide +kernel
  have hparse : Rule.parseFilterFile [82, 69, 65, 68, 77, 69] false .exclude =
      .error .missingPattern := by decide +kernel
  constructor
  · intro records hrecords record hmem
    obtain rfl : ["README".toList] = records := Option.some.inj (hfile.symm.trans hrecords)
    refine plainRecord_of_decide ?_
    rw [List.mem_singleton.mp hmem]
    decide
  · rintro ⟨records, rules, -, -, h⟩
    rw [hparse] at h
    cases h

end RsyncWin
