/-
This file proves when a header line is split into its name and its value.
-/

import Mathlib.Data.List.DropRight
import Neosurf.Construction.Llcache.Object
import Neosurf.ToMathlib.SplitOn

namespace Neosurf.Llcache

/-- A text without the white space at its ends. -/
def strip (text : Bytes) : Bytes := stripTrailing (text.dropWhile isHeaderSpace)

/-- The text behind the first colon of a line. -/
def behindColon (line : Bytes) : Bytes := (line.dropWhile (· ≠ chr ':')).drop 1

/-- A line stands for the stripped texts on both sides of its first colon. -/
def headerOf (line : Bytes) : Header where
  name := strip (line.takeWhile (· ≠ chr ':'))
  value := strip (behindColon line)

/-- A text does not end in white space. -/
def NoSpaceAtEnd (text : Bytes) : Prop := ∀ c, text.getLast? = some c → isHeaderSpace c = false

/-- A line has no colon, or begins without white space, or with one character of it and has a value
that does not end in white space. -/
def FitsLine (line : Bytes) : Prop :=
  chr ':' ∉ line ∨ line.takeWhile isHeaderSpace = [] ∨
    ((line.takeWhile isHeaderSpace).length = 1 ∧
      NoSpaceAtEnd ((behindColon line).dropWhile isHeaderSpace))

/-- A text has no white space at its start. -/
def NoSpaceAtStart (text : Bytes) : Prop := ∀ c, text.head? = some c → isHeaderSpace c = false

/-- These are the parts of a line with a colon: the white space before the name, the name with what
follows it, the white space before the value, and the value with what follows it. -/
structure Parts (line : Bytes) where
  blank : Bytes
  name : Bytes
  gap : Bytes
  value : Bytes
  line_eq : line = blank ++ (name ++ chr ':' :: (gap ++ value))
  blanks : ∀ c ∈ blank, isHeaderSpace c = true
  named : chr ':' ∉ name
  starts : NoSpaceAtStart name
  gaps : ∀ c ∈ gap, isHeaderSpace c = true
  begins : NoSpaceAtStart value

theorem noSpaceAtStart_dropWhile (text : Bytes) :
    NoSpaceAtStart (text.dropWhile isHeaderSpace) := by
  intro c first
  have kept := List.head?_dropWhile_not isHeaderSpace text
  rw [first] at kept
  simpa using kept

theorem dropWhile_of_start {text : Bytes} (solid : NoSpaceAtStart text) :
    text.dropWhile isHeaderSpace = text := by
  cases text with
  | nil => rfl
  | cons c rest => exact List.dropWhile_cons_of_neg (by simp [solid c rfl])

theorem takeWhile_of_start {text : Bytes} (solid : NoSpaceAtStart text) :
    text.takeWhile isHeaderSpace = [] := by
  cases text with
  | nil => rfl
  | cons c rest => exact List.takeWhile_cons_of_neg (by simp [solid c rfl])

/-- A run of white space is taken before a text that begins without it. -/
theorem takeWhile_blank {blank text : Bytes} (blanks : ∀ c ∈ blank, isHeaderSpace c = true)
    (solid : NoSpaceAtStart text) : (blank ++ text).takeWhile isHeaderSpace = blank := by
  rw [List.takeWhile_append_of_pos blanks, takeWhile_of_start solid, List.append_nil]

theorem dropWhile_blank {blank text : Bytes} (blanks : ∀ c ∈ blank, isHeaderSpace c = true)
    (solid : NoSpaceAtStart text) : (blank ++ text).dropWhile isHeaderSpace = text := by
  rw [List.dropWhile_append_of_pos blanks, dropWhile_of_start solid]

theorem solid_of_not_mem {text : Bytes} (alone : chr ':' ∉ text) :
    ∀ c ∈ text, decide (c ≠ chr ':') = true := by
  intro c inside
  exact decide_eq_true fun same => alone (same ▸ inside)

theorem takeWhile_colon {name rest : Bytes} (alone : chr ':' ∉ name) :
    (name ++ chr ':' :: rest).takeWhile (· ≠ chr ':') = name := by
  rw [List.takeWhile_append_of_pos (solid_of_not_mem alone),
    List.takeWhile_cons_of_neg (by decide), List.append_nil]

theorem takeWhile_whole {text : Bytes} (alone : chr ':' ∉ text) :
    text.takeWhile (· ≠ chr ':') = text :=
  List.takeWhile_eq_self_iff.mpr (solid_of_not_mem alone)

theorem dropWhile_colon {name rest : Bytes} (alone : chr ':' ∉ name) :
    (name ++ chr ':' :: rest).dropWhile (· ≠ chr ':') = chr ':' :: rest := by
  rw [List.dropWhile_append_of_pos (solid_of_not_mem alone),
    List.dropWhile_cons_of_neg (by decide)]

/-- A line with a colon has these parts. -/
theorem exists_parts {line : Bytes} (colon : chr ':' ∈ line) : Nonempty (Parts line) := by
  obtain ⟨before, behind, rfl, first⟩ := List.eq_append_cons_of_mem colon
  refine ⟨{
    blank := before.takeWhile isHeaderSpace
    name := before.dropWhile isHeaderSpace
    gap := behind.takeWhile isHeaderSpace
    value := behind.dropWhile isHeaderSpace
    line_eq := ?_
    blanks := fun _ => List.mem_takeWhile_imp
    named := fun inside => first ((List.dropWhile_sublist _).subset inside)
    starts := noSpaceAtStart_dropWhile before
    gaps := fun _ => List.mem_takeWhile_imp
    begins := noSpaceAtStart_dropWhile behind }⟩
  rw [List.takeWhile_append_dropWhile, ← List.append_assoc, List.takeWhile_append_dropWhile]

namespace Parts

variable {line : Bytes} (parts : Parts line)

/-- The line from its name on. -/
abbrev data : Bytes := parts.name ++ chr ':' :: (parts.gap ++ parts.value)

theorem data_start : NoSpaceAtStart parts.data := by
  intro c first
  cases named : parts.name with
  | nil =>
      rw [data, named] at first
      cases first
      decide
  | cons d rest =>
      rw [data, named] at first
      cases first
      exact parts.starts c (by rw [named]; rfl)

theorem blank_eq : line.takeWhile isHeaderSpace = parts.blank := by
  conv_lhs => rw [parts.line_eq]
  exact takeWhile_blank parts.blanks parts.data_start

theorem colon_not_blank : chr ':' ∉ parts.blank :=
  fun inside => absurd (parts.blanks _ inside) (by decide)

theorem prefix_eq : line = (parts.blank ++ parts.name) ++ chr ':' :: (parts.gap ++ parts.value) := by
  rw [List.append_assoc]
  exact parts.line_eq

theorem colon_not_prefix : chr ':' ∉ parts.blank ++ parts.name := by
  rw [List.mem_append, not_or]
  exact ⟨parts.colon_not_blank, parts.named⟩

theorem behindColon_eq : behindColon line = parts.gap ++ parts.value := by
  rw [behindColon]
  conv_lhs => rw [parts.prefix_eq]
  rw [dropWhile_colon parts.colon_not_prefix]
  rfl

/-- The header of the line in terms of its parts. -/
theorem headerOf_eq : headerOf line =
    { name := stripTrailing parts.name, value := stripTrailing parts.value } := by
  have before : line.takeWhile (· ≠ chr ':') = parts.blank ++ parts.name := by
    conv_lhs => rw [parts.prefix_eq]
    exact takeWhile_colon parts.colon_not_prefix
  rw [headerOf, before, parts.behindColon_eq, strip, strip, dropWhile_blank parts.blanks parts.starts,
    dropWhile_blank parts.gaps parts.begins]

/-- The header is read up to the length that is left for the value. -/
theorem readHeader_eq : readHeader line =
    (valueLength line parts.blank.length line.length).map fun len =>
      { name := stripTrailing parts.name
        value := parts.value.take
          (sizeDifference len (parts.name.length + 1 + parts.gap.length)) } := by
  have data : line.drop parts.blank.length = parts.data :=
    (congrArg (List.drop parts.blank.length) parts.line_eq).trans List.drop_left
  have colon : (parts.data.takeWhile (· ≠ chr ':')).length = parts.name.length := by
    rw [takeWhile_colon parts.named]
  have found : ¬parts.name.length = parts.data.length := by
    rw [List.length_append, List.length_cons]
    omega
  have behind : parts.data.drop (parts.name.length + 1) = parts.gap ++ parts.value := by
    rw [List.drop_length_add_append, List.drop_one, List.tail_cons]
  have value : parts.data.drop (parts.name.length + 1 + parts.gap.length) = parts.value := by
    rw [← List.drop_drop, behind, List.drop_left]
  have name : parts.data.take parts.name.length = parts.name := List.take_left
  rw [readHeader, parts.blank_eq]
  dsimp only
  rw [data, colon, if_neg found, behind, takeWhile_blank parts.gaps parts.begins, value, name]
  cases valueLength line parts.blank.length line.length <;> rfl

end Parts

/-- Without white space before the name, the length is that of the line without its white space. -/
theorem valueLength_zero {text : Bytes} {len : Nat} (within : len ≤ text.length) :
    valueLength text 0 len = some (stripTrailing (text.take len)).length := by
  induction len with
  | zero => rfl
  | succ len ih =>
      have byte : lineByte text (0 + len) = some text[len] := by
        rw [lineByte, Nat.zero_add, List.getElem?_append_left within, List.getElem?_eq_getElem]
      rw [valueLength, byte, List.take_succ_eq_append_getElem within]
      change (if isHeaderSpace text[len] = true then valueLength text 0 len else some (len + 1)) = _
      split_ifs with space
      · rw [ih (Nat.le_of_succ_le within)]
        exact congrArg (some ∘ List.length) (List.rdropWhile_concat_pos _ _ _ space).symm
      · have kept : stripTrailing (text.take len ++ [text[len]]) = text.take len ++ [text[len]] :=
          List.rdropWhile_concat_neg _ _ _ space
        rw [kept, List.length_append, List.length_take_of_le (Nat.le_of_succ_le within)]
        rfl

/-- One character of white space before the name makes the loop start at the NUL. -/
theorem valueLength_one {line : Bytes} (some_ : line ≠ []) :
    valueLength line 1 line.length = some line.length := by
  obtain ⟨len, size⟩ : ∃ len, line.length = len + 1 :=
    ⟨line.length - 1, by have := List.length_pos_of_ne_nil some_; omega⟩
  have nul : lineByte line (1 + len) = some 0 := by
    rw [lineByte, Nat.add_comm, ← size, List.getElem?_concat_length]
  rw [size, valueLength, nul]
  rfl

/-- More white space before the name makes it start behind the NUL. -/
theorem valueLength_more {line : Bytes} {start : Nat} (some_ : line ≠ []) (more : 2 ≤ start) :
    valueLength line start line.length = none := by
  obtain ⟨len, size⟩ : ∃ len, line.length = len + 1 :=
    ⟨line.length - 1, by have := List.length_pos_of_ne_nil some_; omega⟩
  have outside : lineByte line (start + len) = none := by
    rw [lineByte, List.getElem?_eq_none]
    rw [List.length_append, size, List.length_singleton]
    omega
  rw [size, valueLength, outside]
  rfl

/-- The length of the value is what is left of the stripped line. -/
theorem Parts.take_value {line : Bytes} (parts : Parts line) (start : parts.blank = []) :
    parts.value.take (sizeDifference (stripTrailing line).length
      (parts.name.length + 1 + parts.gap.length)) = stripTrailing parts.value := by
  have split : line = (parts.name ++ chr ':' :: parts.gap) ++ parts.value := by
    rw [List.append_assoc, List.cons_append]
    exact parts.line_eq.trans (by rw [start, List.nil_append])
  have size : (parts.name ++ chr ':' :: parts.gap).length =
      parts.name.length + 1 + parts.gap.length := by
    rw [List.length_append, List.length_cons]
    omega
  cases value : parts.value with
  | nil => rw [List.take_nil]; rfl
  | cons c rest =>
      have solid : isHeaderSpace c = false := parts.begins c (by rw [value]; rfl)
      have kept : (c :: rest).rdropWhile isHeaderSpace ≠ [] := by
        intro empty
        have all := List.rdropWhile_eq_nil_iff.mp empty c (List.mem_cons_self ..)
        rw [solid] at all
        cases all
      have stripped : stripTrailing line =
          (parts.name ++ chr ':' :: parts.gap) ++ stripTrailing (c :: rest) := by
        refine (congrArg stripTrailing split).trans ?_
        rw [value]
        exact List.rdropWhile_append_of_ne_nil kept
      rw [stripped, List.length_append, size, sizeDifference, if_pos (Nat.le_add_right _ _),
        Nat.add_sub_cancel_left]
      exact (List.prefix_iff_eq_take.mp (List.rdropWhile_prefix _ _)).symm

/-- The end of a text is solid when nothing is stripped there. -/
theorem stripTrailing_eq_iff (text : Bytes) : stripTrailing text = text ↔ NoSpaceAtEnd text := by
  refine List.rdropWhile_eq_self_iff.trans ?_
  constructor
  · intro last c here
    have some : text ≠ [] := by
      rintro rfl
      cases here
    rw [List.getLast?_eq_some_getLast some] at here
    cases here
    simpa using last some
  · intro solid some
    simp [solid _ (List.getLast?_eq_some_getLast some)]

/-- A line without a colon is a name. -/
theorem readHeader_of_noColon {line : Bytes} (alone : chr ':' ∉ line) :
    readHeader line = some (headerOf line) := by
  have inside : chr ':' ∉ line.dropWhile isHeaderSpace :=
    fun found => alone ((List.dropWhile_sublist _).subset found)
  have none_ : line.dropWhile (· ≠ chr ':') = [] :=
    List.dropWhile_eq_nil_iff.mpr (solid_of_not_mem alone)
  rw [readHeader, headerOf, behindColon, takeWhile_whole alone, none_]
  dsimp only
  rw [List.drop_length_takeWhile, takeWhile_whole inside, if_pos rfl, List.take_length]
  rfl

/-- The header of a line with a colon, by the white space before its name. -/
theorem Parts.readHeader_cases {line : Bytes} (parts : Parts line) :
    (parts.blank = [] ∧ readHeader line = some (headerOf line)) ∨
    (parts.blank.length = 1 ∧
      readHeader line = some { name := stripTrailing parts.name, value := parts.value }) ∨
    (2 ≤ parts.blank.length ∧ readHeader line = none) := by
  have colon : chr ':' ∈ line := by
    rw [parts.prefix_eq]
    exact List.mem_append_right _ (List.mem_cons_self ..)
  have some_ : line ≠ [] := List.ne_nil_of_mem colon
  have size : line.length =
      parts.blank.length + (parts.name.length + 1 + parts.gap.length) + parts.value.length := by
    rw [congrArg List.length parts.line_eq]
    simp only [List.length_append, List.length_cons]
    omega
  rcases Nat.lt_or_ge parts.blank.length 2 with few | more
  · rcases Nat.lt_or_ge parts.blank.length 1 with none_ | one
    · have start : parts.blank = [] := List.length_eq_zero_iff.mp (by omega)
      left
      refine ⟨start, ?_⟩
      rw [parts.readHeader_eq, start, List.length_nil, valueLength_zero le_rfl, List.take_length,
        Option.map_some, parts.take_value start, parts.headerOf_eq]
    · have single : parts.blank.length = 1 := by omega
      right; left
      refine ⟨single, ?_⟩
      rw [parts.readHeader_eq, single, valueLength_one some_, Option.map_some, sizeDifference,
        if_pos (by omega), List.take_of_length_le (by omega)]
  · right; right
    exact ⟨more, by rw [parts.readHeader_eq, valueLength_more some_ more]; rfl⟩

/-- A header line is read as it stands, and nothing outside of it, exactly when it fits. -/
theorem readHeader_eq_iff (line : Bytes) :
    readHeader line = some (headerOf line) ↔ FitsLine line := by
  by_cases colon : chr ':' ∈ line
  · obtain ⟨parts⟩ := exists_parts colon
    rw [FitsLine, or_iff_right (not_not.mpr colon), parts.blank_eq, parts.behindColon_eq,
      dropWhile_blank parts.gaps parts.begins, ← stripTrailing_eq_iff]
    rcases parts.readHeader_cases with ⟨start, read⟩ | ⟨single, read⟩ | ⟨more, read⟩
    · exact iff_of_true read (.inl start)
    · have some : parts.blank ≠ [] := fun start => by rw [start] at single; cases single
      rw [read, parts.headerOf_eq, or_iff_right some, and_iff_right single]
      simp only [Option.some.injEq, Header.mk.injEq, true_and]
      exact eq_comm
    · have some : parts.blank ≠ [] := fun start => by rw [start] at more; cases more
      rw [read, or_iff_right some]
      exact iff_of_false (by simp) (by omega)
  · exact iff_of_true (readHeader_of_noColon colon) (.inl colon)

/-- The header of the object model by the parts of its line. -/
theorem Parts.splitHeader_eq {line : Bytes} (parts : Parts line) : splitHeader line =
    { name := stripTrailing parts.name
      value := if parts.blank = [] then stripTrailing parts.value else parts.value } := by
  have data : line.dropWhile isHeaderSpace = parts.data :=
    (congrArg (List.dropWhile isHeaderSpace) parts.line_eq).trans
      (dropWhile_blank parts.blanks parts.data_start)
  have whole : parts.data = line ↔ parts.blank = [] := by
    constructor
    · intro same
      have size : parts.data.length = parts.blank.length + parts.data.length := by
        rw [← List.length_append]
        exact congrArg List.length (same.trans parts.line_eq)
      exact List.length_eq_zero_iff.mp (by omega)
    · intro start
      exact (parts.line_eq.trans (by rw [start, List.nil_append])).symm
  have behind : parts.data.drop (parts.name.length + 1) = parts.gap ++ parts.value := by
    rw [List.drop_length_add_append, List.drop_one, List.tail_cons]
  rw [splitHeader, data, takeWhile_colon parts.named, behind, dropWhile_blank parts.gaps parts.begins]
  simp only [whole]

/-- What is read inside the line is the header of the object model. -/
theorem splitHeader_of_readHeader {line : Bytes} {header : Header}
    (read : readHeader line = some header) : splitHeader line = header := by
  by_cases colon : chr ':' ∈ line
  · obtain ⟨parts⟩ := exists_parts colon
    rw [parts.splitHeader_eq]
    rcases parts.readHeader_cases with ⟨start, here⟩ | ⟨single, here⟩ | ⟨more, here⟩
    · rw [here, parts.headerOf_eq] at read
      cases read
      rw [if_pos start]
    · rw [here] at read
      cases read
      rw [if_neg fun start => by rw [start] at single; cases single]
    · rw [here] at read
      cases read
  · rw [readHeader_of_noColon colon] at read
    cases read
    have inside : chr ':' ∉ line.dropWhile isHeaderSpace :=
      fun found => colon ((List.dropWhile_sublist _).subset found)
    have nothing : line.dropWhile (· ≠ chr ':') = [] :=
      List.dropWhile_eq_nil_iff.mpr (solid_of_not_mem colon)
    rw [splitHeader, headerOf, behindColon, takeWhile_whole colon, nothing,
      takeWhile_whole inside, List.drop_of_length_le (Nat.le_succ _)]
    split_ifs <;> rfl

/-- A line with two blanks before its name is read behind its NUL, and with one its value keeps the
blank at the end. -/
theorem readHeader_outside : readHeader (str "  a: b") = none ∧
    readHeader (str " a: b ") = some { name := str "a", value := str "b " } ∧
    headerOf (str " a: b ") = { name := str "a", value := str "b" } ∧
    ¬∀ line, readHeader line = some (headerOf line) := by
  refine ⟨by decide, by decide, by decide, fun all => ?_⟩
  exact absurd (all (str "  a: b")) (by decide)

end Neosurf.Llcache
