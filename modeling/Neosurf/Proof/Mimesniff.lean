/-
This file proves when the sniffer of MIME types stays within its data and comes to an end.
-/

import Neosurf.Construction.Mimesniff

namespace Neosurf.Mimesniff

open Reading

/-- A box of the type `ftyp` starts the data, with a size of zero and another major brand. -/
structure ZeroBox (data : Bytes) : Prop where
  long : 12 ≤ data.length
  size : startsWith [0, 0, 0, 0] data = true
  type : startsWith (str "ftyp") (data.drop 4) = true
  major : startsWith (str "mp4") (data.drop 8) = false

/-- The data has a compatible brand, before its position wraps or at the minor version after that. -/
def StopsInside (data : Bytes) : Prop :=
  (∃ i, i % 4 = 0 ∧ 16 ≤ i ∧ i < 2 ^ 32 ∧ startsWith (str "mp4") (data.drop i) = true) ∨
    (¬data.drop (2 ^ 32 - 4) <+: str "mp4" ∧ startsWith (str "mp4") (data.drop 12) = true)

/-- Some states go on at the same character. -/
def FeedState.weight : FeedState → Nat
  | .beforeBom | .markupStart | .commentOrDoctype => 1
  | _ => 0

namespace Checked

variable {data : Bytes} {i stop len : Nat}

/-- The part of the data between a position and an end. -/
def view (data : Bytes) (i stop : Nat) : Bytes := (data.take stop).drop i

theorem view_eq (data : Bytes) (i stop : Nat) : view data i stop = (data.drop i).take (stop - i) :=
  List.drop_take

theorem length_view (inside : stop ≤ data.length) : (view data i stop).length = stop - i := by
  rw [view, List.length_drop, List.length_take_of_le inside]

/-- A signature starts a cut text when it starts the text and is not too long. -/
theorem startsWith_take (sig text : Bytes) (size : Nat) :
    startsWith sig (text.take size) = (decide (sig.length ≤ size) && startsWith sig text) := by
  rw [Bool.eq_iff_iff, Bool.and_eq_true, decide_eq_true_eq, startsWith, startsWith,
    List.isPrefixOf_iff_prefix, List.isPrefixOf_iff_prefix, List.prefix_take_iff]
  exact and_comm

theorem startsWith_view (sig : Bytes) :
    startsWith sig (view data i stop) =
      (decide (sig.length ≤ stop - i) && startsWith sig (data.drop i)) := by
  rw [view_eq, startsWith_take]

theorem startsAt_eq (ordered : i ≤ stop) (inside : stop ≤ data.length) (sig : Bytes) :
    startsAt data i stop sig = done (startsWith sig (view data i stop)) := by
  rw [startsAt, startsWith_view]
  by_cases fits : sig.length ≤ stop - i
  · rw [if_pos fits, compareAll_eq (by omega)]
    simp [fits, startsWith]
  · simp [fits]

theorem readsAt_eq (ordered : i ≤ stop) (inside : stop ≤ data.length) (sig : Bytes) :
    readsAt data i stop sig = done (startsWith sig (view data i stop)) := by
  rw [readsAt, startsWith_view]
  by_cases fits : sig.length ≤ stop - i
  · rw [if_pos fits, compareUpTo_eq (by omega)]
    simp [fits, startsWith]
  · simp [fits]

/-- A position before the end holds a byte. -/
theorem view_cons (before : i < stop) (inside : stop ≤ data.length) :
    ∃ c, readAt data i = done c ∧ view data i stop = c :: view data (i + 1) stop := by
  cases left : data.drop i with
  | nil =>
      have ended := List.drop_eq_nil_iff.mp left
      omega
  | cons c rest =>
      refine ⟨c, readAt_cons left, ?_⟩
      obtain ⟨more, size⟩ : ∃ more, stop - i = more + 1 := ⟨stop - i - 1, by omega⟩
      rw [view_eq, view_eq, drop_succ_of_drop left, left, size, List.take_succ_cons]
      congr 2
      omega

theorem view_nil (ended : stop ≤ i) : view data i stop = [] := by
  rw [view_eq, Nat.sub_eq_zero_of_le ended, List.take_zero]

/-- The search for a binary octet reads every byte once. -/
theorem hasBinaryOctets_eq (inside : i + len ≤ data.length) :
    hasBinaryOctets data len i = done (Mimesniff.hasBinaryOctets (view data i (i + len))) := by
  induction len generalizing i with
  | zero => rw [view_nil (by omega)]; rfl
  | succ len ih =>
      obtain ⟨c, read, first⟩ := view_cons (Nat.lt_add_of_pos_right (Nat.succ_pos len)) inside
      have next : i + 1 + len = i + (len + 1) := by omega
      rw [hasBinaryOctets, read, first, done_bind, ih (by omega), next]
      cases binary : isBinaryOctet c with
      | true => simp [Mimesniff.hasBinaryOctets, binary]
      | false => simp [Mimesniff.hasBinaryOctets, binary]

/-- White space is skipped up to another character. -/
theorem skipSpace_eq (inside : i + len ≤ data.length) :
    ∃ j, skipSpace data len i = done j ∧ i ≤ j ∧ j ≤ i + len ∧
      view data j (i + len) = (view data i (i + len)).dropWhile isSniffedSpace := by
  induction len generalizing i with
  | zero => exact ⟨i, rfl, le_rfl, le_rfl, by rw [view_nil (by omega)]; rfl⟩
  | succ len ih =>
      obtain ⟨c, read, first⟩ := view_cons (Nat.lt_add_of_pos_right (Nat.succ_pos len)) inside
      have next : i + 1 + len = i + (len + 1) := by omega
      rw [skipSpace, read, first, done_bind]
      cases space : isSniffedSpace c with
      | true =>
          obtain ⟨j, skipped, low, high, rest⟩ := ih (i := i + 1) (by omega)
          rw [next] at high rest
          exact ⟨j, skipped, by omega, high, by rw [rest, List.dropWhile_cons_of_pos space]⟩
      | false =>
          refine ⟨i, rfl, le_rfl, by omega, ?_⟩
          rw [List.dropWhile_cons_of_neg (by simp [space]), first]

/-- A comparison without case of as many characters as there are stays within the data. -/
theorem caselessAt_eq {sig : Bytes} (inside : i + sig.length ≤ data.length) :
    caselessAt data i sig = done (startsWith (folded sig) (folded (data.drop i))) := by
  induction sig generalizing i with
  | nil => rfl
  | cons c sig ih =>
      rw [List.length_cons] at inside
      cases left : data.drop i with
      | nil =>
          have ended := List.drop_eq_nil_iff.mp left
          omega
      | cons b rest =>
          rw [caselessAt, readAt_cons left, done_bind, ih (by omega), drop_succ_of_drop left]
          simp only [startsWith, folded, List.map_cons, List.isPrefixOf]
          cases toLower c == toLower b <;> rfl

/-- The byte at a place of a part is read. -/
theorem readAt_view {n : Nat} (before : i + n < stop) (inside : stop ≤ data.length) :
    readAt data (i + n) = done (byteAt (view data i stop) n) := by
  have here : data[i + n]? = some data[i + n] := List.getElem?_eq_getElem (by omega)
  have there : (view data i stop)[n]? = some data[i + n] := by
    rw [view, List.getElem?_drop, List.getElem?_take_of_lt before, here]
  rw [readAt, here, byteAt, List.getD_eq_getElem?_getD, there]
  rfl

/-- A tag starts a text. -/
def startsTag (text sig : Bytes) : Bool :=
  sig.length + 1 ≤ text.length && startsWith (folded sig) (folded text) &&
    (byteAt text sig.length == chr ' ' || byteAt text sig.length == chr '>')

/-- A tag is compared within the data. -/
theorem tagAt_eq (ordered : i ≤ stop) (inside : stop ≤ data.length) (sig : Bytes) :
    tagAt data i (stop - i) sig = done (startsTag (view data i stop) sig) := by
  rw [tagAt, startsTag, length_view inside]
  by_cases short : stop - i < sig.length + 1
  · rw [if_pos short, decide_eq_false (not_le.mpr short), Bool.false_and, Bool.false_and]
  · have text : folded (view data i stop) = (folded (data.drop i)).take (stop - i) := by
      rw [view_eq, folded, List.map_take]
      rfl
    have fits : (folded sig).length ≤ stop - i := by
      rw [folded, List.length_map]
      omega
    have long : sig.length + 1 ≤ stop - i := by omega
    rw [if_neg short, caselessAt_eq (by omega), readAt_view (by omega) inside, text,
      startsWith_take]
    simp only [fits, long, decide_true, Bool.true_and, done_bind]
    cases startsWith (folded sig) (folded (data.drop i)) <;> rfl

/-- The answer of a matcher. -/
theorem matchUnknownExact_eq (inside : len ≤ data.length) (allowUnsafe : Bool) :
    matchUnknownExact data len allowUnsafe =
      done (Mimesniff.matchUnknownExact (data.take len) allowUnsafe) := by
  have tested : ∀ entry ∈ exactMatchTypes,
      (do
        let same ← startsAt data 0 len entry.2.1
        done (same && (allowUnsafe || entry.2.2)) : Reading Bool) =
      done (startsWith entry.2.1 (data.take len) && (allowUnsafe || entry.2.2)) := by
    intro entry _
    rw [startsAt_eq (Nat.zero_le len) inside, done_bind]
    rfl
  rw [matchUnknownExact, findM?_eq_done tested]
  rfl

theorem riffAt_eq (inside : len ≤ data.length) {sig : Bytes} (nonempty : 0 < sig.length) :
    riffAt data len sig = done (startsWith (str "RIFF") (data.take len) &&
      startsWith sig ((data.take len).drop 8)) := by
  have start : startsWith (str "RIFF") (data.take len) =
      (decide (4 ≤ len) && startsWith (str "RIFF") data) := startsWith_view (i := 0) (str "RIFF")
  have behind : startsWith sig ((data.take len).drop 8) =
      (decide (sig.length ≤ len - 8) && startsWith sig (data.drop 8)) := startsWith_view sig
  rw [riffAt, start, behind]
  by_cases fits : sig.length + 8 ≤ len
  · have four : (str "RIFF").length = 4 := rfl
    rw [if_pos fits, compareAll_eq (by omega), compareAll_eq (by omega), done_bind]
    have enough : 4 ≤ len := by omega
    have left : sig.length ≤ len - 8 := by omega
    simp only [enough, left, decide_true, Bool.true_and, List.drop_zero, startsWith]
    cases (str "RIFF").isPrefixOf data <;> rfl
  · have short : ¬sig.length ≤ len - 8 := by omega
    simp [fits, short]

theorem matchUnknownRiff_eq (inside : len ≤ data.length) :
    matchUnknownRiff data len = done (Mimesniff.matchUnknownRiff (data.take len)) := by
  have nonempty : ∀ entry ∈ riffMatchTypes, 0 < entry.2.length := by decide
  rw [matchUnknownRiff, findM?_eq_done fun entry listed => riffAt_eq inside (nonempty entry listed)]
  rfl

theorem matchUnknownBom_eq (inside : len ≤ data.length) :
    matchUnknownBom data len = done (Mimesniff.matchUnknownBom (data.take len)) := by
  rw [matchUnknownBom,
    findM?_eq_done fun entry _ => startsAt_eq (Nat.zero_le len) inside entry.2]
  rfl

/-- A search that answers the same for all entries. -/
theorem map_find?_const {α β : Type} (list : List α) (found : α → Bool) (answer : β) :
    (list.find? found).map (fun _ => answer) = if list.any found then some answer else none := by
  induction list with
  | nil => rfl
  | cons x rest ih =>
      rw [List.find?_cons, List.any_cons]
      cases found x with
      | true => rfl
      | false => exact ih

theorem matchUnknownWs_eq (inside : len ≤ data.length) :
    matchUnknownWs data len = done (Mimesniff.matchUnknownWs (data.take len)) := by
  obtain ⟨i, skipped, -, ordered, left⟩ := @skipSpace_eq data 0 len (by omega)
  rw [Nat.zero_add] at ordered left
  have ended : i = len ↔ view data i len = [] := by
    rw [← List.length_eq_zero_iff, length_view inside]
    omega
  have tags : wsInexactMatchTypes.findM? (tagAt data i (len - i)) =
      done (wsInexactMatchTypes.find? (startsTag (view data i len))) :=
    findM?_eq_done fun sig _ => tagAt_eq ordered inside sig
  have pure : Mimesniff.matchUnknownWs (data.take len) =
      if view data i len = [] then none
      else if startsWith (str "<?xml") (view data i len) then some (str "text/xml")
      else if wsInexactMatchTypes.any (startsTag (view data i len)) then some (str "text/html")
      else none := by
    rw [left]
    rfl
  rw [matchUnknownWs, skipped, done_bind, startsAt_eq ordered inside, tags, pure]
  simp only [done_bind, ended, map_find?_const]
  split_ifs <;> rfl

/-- A box that lies within the data is searched to its end. -/
theorem brandLoop_box {boxSize n : Nat} (some_box : 4 ≤ boxSize) (inside : boxSize ≤ data.length)
    (counted : boxSize < 2 ^ 32) (enough : boxSize ≤ i + 4 * n + 3) :
    ∃ answer, brandLoop data (boxSize - 4) (n + 1) i = done answer := by
  induction n generalizing i with
  | zero => exact ⟨none, if_neg (by omega)⟩
  | succ n ih =>
      rw [brandLoop]
      split
      · have three : (str "mp4").length = 3 := rfl
        rw [compareUpTo_eq (by omega), done_bind]
        split
        · exact ⟨_, rfl⟩
        · have next : (i + 4) % 2 ^ 32 = i + 4 := Nat.mod_eq_of_lt (by omega)
          rw [next]
          exact ih (by omega)
      · exact ⟨none, rfl⟩

/-- The position of a brand after so many others, in 32 bits. -/
def brandPlace (i k : Nat) : Nat := (i + 4 * k) % 2 ^ 32

theorem brandPlace_succ (i k : Nat) : brandPlace ((i + 4) % 2 ^ 32) k = brandPlace i (k + 1) := by
  unfold brandPlace
  omega

theorem brandPlace_zero (start : i < 2 ^ 32) : brandPlace i 0 = i := Nat.mod_eq_of_lt (by omega)

/-- The first `mp4` among the places of a loop comes after so many other brands. -/
def FirstBrand (data : Bytes) (i k : Nat) : Prop :=
  compareUpTo data (brandPlace i k) (str "mp4") = done true ∧
    ∀ j < k, compareUpTo data (brandPlace i j) (str "mp4") = done false

theorem firstBrand_succ_iff {k : Nat} (start : i < 2 ^ 32) :
    FirstBrand data i (k + 1) ↔ compareUpTo data i (str "mp4") = done false ∧
      FirstBrand data ((i + 4) % 2 ^ 32) k := by
  simp only [FirstBrand, brandPlace_succ]
  constructor
  · rintro ⟨found, before⟩
    have first := before 0 (Nat.succ_pos k)
    rw [brandPlace_zero start] at first
    exact ⟨first, found, fun j small => before (j + 1) (Nat.succ_lt_succ small)⟩
  · rintro ⟨first, found, before⟩
    refine ⟨found, fun j small => ?_⟩
    cases j with
    | zero => rwa [brandPlace_zero start]
    | succ j => exact before j (Nat.lt_of_succ_lt_succ small)

/-- A loop that never passes its last place ends exactly at the first `mp4`. -/
theorem brandLoop_endless {last : Nat} (start : i < 2 ^ 32)
    (endless : ∀ k, brandPlace i k ≤ last) :
    (∃ rounds answer, brandLoop data last rounds i = done answer) ↔
      ∃ k, FirstBrand data i k := by
  have here : i ≤ last := by
    rw [← brandPlace_zero start]
    exact endless 0
  constructor
  · rintro ⟨rounds, answer, ended⟩
    induction rounds generalizing i with
    | zero => cases ended
    | succ rounds ih =>
        rw [brandLoop, if_pos here] at ended
        rcases compareUpTo_cases data i (str "mp4") with ⟨-, same⟩ | ⟨-, -, left⟩ | ⟨-, -, other⟩
        · refine ⟨0, ?_, fun j small => absurd small (Nat.not_lt_zero j)⟩
          rwa [brandPlace_zero start]
        · rw [left] at ended
          cases ended
        · rw [other] at ended
          have later (k : Nat) : brandPlace ((i + 4) % 2 ^ 32) k ≤ last := by
            rw [brandPlace_succ]
            exact endless (k + 1)
          have bound : (i + 4) % 2 ^ 32 < 2 ^ 32 := Nat.mod_lt _ (by decide)
          have next : (i + 4) % 2 ^ 32 ≤ last := by
            rw [← brandPlace_zero bound]
            exact later 0
          obtain ⟨k, first⟩ := ih bound later next ended
          exact ⟨k + 1, (firstBrand_succ_iff start).mpr ⟨other, first⟩⟩
  · rintro ⟨k, first⟩
    refine ⟨k + 1, some (str "video/mp4"), ?_⟩
    induction k generalizing i with
    | zero =>
        have found := first.1
        rw [brandPlace_zero start] at found
        rw [brandLoop, if_pos here, found]
        rfl
    | succ k ih =>
        obtain ⟨other, rest⟩ := (firstBrand_succ_iff start).mp first
        have later (k : Nat) : brandPlace ((i + 4) % 2 ^ 32) k ≤ last := by
          rw [brandPlace_succ]
          exact endless (k + 1)
        have bound : (i + 4) % 2 ^ 32 < 2 ^ 32 := Nat.mod_lt _ (by decide)
        have next : (i + 4) % 2 ^ 32 ≤ last := by
          rw [← brandPlace_zero bound]
          exact later 0
        rw [brandLoop, if_pos here, other, done_bind, if_neg Bool.false_ne_true]
        exact ih bound later next rest

/-- A brand is found where it stands. -/
theorem compareUpTo_true_iff (data : Bytes) (i : Nat) :
    compareUpTo data i (str "mp4") = done true ↔ startsWith (str "mp4") (data.drop i) = true := by
  rw [startsWith, List.isPrefixOf_iff_prefix]
  rcases compareUpTo_cases data i (str "mp4") with ⟨starts, same⟩ | ⟨cut, short, left⟩ | ⟨other, -, no⟩
  · exact iff_of_true same starts
  · refine iff_of_false (by simp [left]) fun starts => ?_
    exact short (cut.eq_of_length (cut.length_le.antisymm starts.length_le))
  · exact iff_of_false (by simp [no]) other

/-- Another brand is read where enough of the data is left. -/
theorem compareUpTo_false_of_long (long : i + 4 ≤ data.length)
    (other : startsWith (str "mp4") (data.drop i) = false) :
    compareUpTo data i (str "mp4") = done false := by
  have three : (str "mp4").length = 3 := rfl
  rw [compareUpTo_eq (by omega)]
  exact congrArg done other

/-- Another brand is read unless the data ends within the name. -/
theorem compareUpTo_false_of_differs (whole : ¬data.drop i <+: str "mp4")
    (other : startsWith (str "mp4") (data.drop i) = false) :
    compareUpTo data i (str "mp4") = done false := by
  rcases compareUpTo_cases data i (str "mp4") with ⟨starts, -⟩ | ⟨cut, -, -⟩ | ⟨-, -, no⟩
  · rw [startsWith, Bool.eq_false_iff] at other
    exact absurd (List.isPrefixOf_iff_prefix.mpr starts) other
  · exact absurd cut whole
  · exact no

/-- The first words of a box with size zero are no brands. -/
theorem words_of_zeroBox (box : ZeroBox data) {p : Nat} (word : p = 0 ∨ p = 4 ∨ p = 8) :
    startsWith (str "mp4") (data.drop p) = false := by
  obtain ⟨long, zero, ftyp, major⟩ := box
  have starts {sig text : Bytes} (same : startsWith sig text = true) : ∃ rest, sig ++ rest = text :=
    List.isPrefixOf_iff_prefix.mp same
  rcases word with rfl | rfl | rfl
  · obtain ⟨rest, text⟩ := starts zero
    rw [List.drop_zero, ← text]
    rfl
  · obtain ⟨rest, text⟩ := starts ftyp
    rw [← text]
    rfl
  · exact major

/-- The loop for a box with size zero finds a brand when the data has one in time. -/
theorem firstBrand_iff (box : ZeroBox data) :
    (∃ k, FirstBrand data 16 k) ↔ StopsInside data := by
  have long := box.long
  constructor
  · rintro ⟨k, found, before⟩
    rw [compareUpTo_true_iff] at found
    by_cases behind : 16 ≤ brandPlace 16 k
    · refine .inl ⟨brandPlace 16 k, ?_, behind, Nat.mod_lt _ (by decide), found⟩
      unfold brandPlace
      omega
    · have word : brandPlace 16 k = 0 ∨ brandPlace 16 k = 4 ∨ brandPlace 16 k = 8 ∨
          brandPlace 16 k = 12 := by
        unfold brandPlace at behind ⊢
        omega
      have minor : brandPlace 16 k = 12 := by
        rcases word with start | type | major | minor
        · rw [start, words_of_zeroBox box (.inl rfl)] at found
          cases found
        · rw [type, words_of_zeroBox box (.inr (.inl rfl))] at found
          cases found
        · rw [major, words_of_zeroBox box (.inr (.inr rfl))] at found
          cases found
        · exact minor
      have wrapped : 2 ^ 30 - 5 < k := by
        unfold brandPlace at minor
        omega
      have last := before (2 ^ 30 - 5) wrapped
      have place : brandPlace 16 (2 ^ 30 - 5) = 2 ^ 32 - 4 := rfl
      rw [place] at last
      rw [minor] at found
      refine .inr ⟨fun cut => ?_, found⟩
      rcases compareUpTo_cases data (2 ^ 32 - 4) (str "mp4") with ⟨-, same⟩ | ⟨-, -, left⟩ | ⟨-, whole, -⟩
      · rw [last] at same
        cases same
      · rw [last] at left
        cases left
      · exact whole cut
  · intro stops
    by_cases early : ∃ i, i % 4 = 0 ∧ 16 ≤ i ∧ i < 2 ^ 32 ∧
        startsWith (str "mp4") (data.drop i) = true
    · obtain ⟨aligned, behind, counted, found⟩ := Nat.find_spec early
      have least := @Nat.find_min _ _ early
      generalize Nat.find early = i at *
      have inside : i + 3 ≤ data.length := by
        have size := (List.isPrefixOf_iff_prefix.mp found).length_le
        rw [List.length_drop] at size
        have three : (str "mp4").length = 3 := rfl
        omega
      have place : brandPlace 16 ((i - 16) / 4) = i := by
        unfold brandPlace
        omega
      refine ⟨(i - 16) / 4, by rwa [place, compareUpTo_true_iff], fun j small => ?_⟩
      have earlier : brandPlace 16 j = 16 + 4 * j := Nat.mod_eq_of_lt (by omega)
      rw [earlier]
      refine compareUpTo_false_of_long (by omega) (Bool.eq_false_iff.mpr fun same => ?_)
      exact least (by omega) ⟨by omega, by omega, by omega, same⟩
    · obtain ⟨whole, minor⟩ := stops.resolve_left early
      have size : 2 ^ 32 - 4 < data.length := by
        by_contra short
        rw [List.drop_eq_nil_of_le (not_lt.mp short)] at whole
        exact whole List.nil_prefix
      have place : brandPlace 16 (2 ^ 30 - 1) = 12 := rfl
      refine ⟨2 ^ 30 - 1, by rwa [place, compareUpTo_true_iff], fun j small => ?_⟩
      have aligned : brandPlace 16 j % 4 = 0 := by
        unfold brandPlace
        omega
      have counted : brandPlace 16 j < 2 ^ 32 := Nat.mod_lt _ (by decide)
      have other : brandPlace 16 j ≠ 12 := by
        unfold brandPlace
        omega
      generalize brandPlace 16 j = p at *
      have absent : startsWith (str "mp4") (data.drop p) = false := by
        by_cases behind : 16 ≤ p
        · exact Bool.eq_false_iff.mpr fun same => early ⟨p, aligned, behind, counted, same⟩
        · exact words_of_zeroBox box (by omega)
      by_cases last : p = 2 ^ 32 - 4
      · subst last
        exact compareUpTo_false_of_differs whole absent
      · exact compareUpTo_false_of_long (by omega) absent

/-- A byte of the data is read. -/
theorem readAt_byte (before : i < data.length) : readAt data i = done (byteAt data i) := by
  have read := @readAt_view data 0 data.length i (by omega) le_rfl
  rw [Nat.zero_add] at read
  rw [read, view, List.take_length, List.drop_zero]

/-- The size of a box is zero when its four bytes are. -/
theorem startsWith_zeros (long : 4 ≤ data.length) : startsWith [0, 0, 0, 0] data = true ↔
    boxSizeOf (byteAt data 0) (byteAt data 1) (byteAt data 2) (byteAt data 3) = 0 := by
  obtain ⟨a, first, rfl⟩ := List.exists_cons_of_length_pos (l := data) (by omega)
  obtain ⟨b, second, rfl⟩ := List.exists_cons_of_length_pos (l := first) (by simp at long; omega)
  obtain ⟨c, third, rfl⟩ := List.exists_cons_of_length_pos (l := second) (by simp at long; omega)
  obtain ⟨d, rest, rfl⟩ := List.exists_cons_of_length_pos (l := third) (by simp at long; omega)
  have zero (x : Byte) : (0 == x) = true ↔ x.toNat = 0 := by
    rw [beq_iff_eq, ← UInt8.toNat_inj]
    exact eq_comm
  simp only [startsWith, List.isPrefixOf, Bool.and_true, Bool.and_eq_true, zero, byteAt,
    List.getD_cons_zero, List.getD_cons_succ, boxSizeOf]
  omega

theorem boxSizeOf_lt (b₀ b₁ b₂ b₃ : Byte) : boxSizeOf b₀ b₁ b₂ b₃ < 2 ^ 32 := by
  have first := b₀.toNat_lt
  have second := b₁.toNat_lt
  have third := b₂.toNat_lt
  have fourth := b₃.toNat_lt
  unfold boxSizeOf
  omega

/-- The loop for the brands of a box ends unless its size is zero. -/
theorem brandLoop_sized {boxSize : Nat} (whole : boxSize % 4 = 0) (some_box : boxSize ≠ 0)
    (inside : boxSize ≤ data.length) (counted : boxSize < 2 ^ 32) :
    ∃ rounds answer, brandLoop data (lastBrand boxSize) rounds 16 = done answer := by
  have last : lastBrand boxSize = boxSize - 4 := by
    unfold lastBrand
    omega
  rw [last]
  obtain ⟨answer, ended⟩ := @brandLoop_box data 16 boxSize boxSize (by omega) inside counted
    (by omega)
  exact ⟨boxSize + 1, answer, ended⟩

theorem brandLoop_zero (box : ZeroBox data) :
    (∃ rounds answer, brandLoop data (lastBrand 0) rounds 16 = done answer) ↔ StopsInside data := by
  have last : lastBrand 0 = 2 ^ 32 - 4 := by
    unfold lastBrand
    omega
  have endless (k : Nat) : brandPlace 16 k ≤ 2 ^ 32 - 4 := by
    unfold brandPlace
    omega
  rw [last, brandLoop_endless (by decide) endless, firstBrand_iff box]

theorem matchBrands_eq (long : 12 ≤ data.length) (rounds boxSize : Nat) :
    matchBrands rounds data boxSize =
      if startsWith (str "ftyp") (data.drop 4) then
        if startsWith (str "mp4") (data.drop 8) then done (some (str "video/mp4"))
        else brandLoop data (lastBrand boxSize) rounds 16
      else done none := by
  have four : (str "ftyp").length = 4 := rfl
  have three : (str "mp4").length = 3 := rfl
  rw [matchBrands, compareUpTo_eq (by omega), compareUpTo_eq (by omega)]
  rfl

theorem matchMp4_eq (inside : len ≤ data.length) (long : 12 ≤ len) (rounds : Nat) :
    matchMp4 rounds data len =
      if len < boxSizeOf (byteAt data 0) (byteAt data 1) (byteAt data 2) (byteAt data 3) ∨
          boxSizeOf (byteAt data 0) (byteAt data 1) (byteAt data 2) (byteAt data 3) % 4 ≠ 0 then
        done none
      else matchBrands rounds data
        (boxSizeOf (byteAt data 0) (byteAt data 1) (byteAt data 2) (byteAt data 3)) := by
  have read (n : Nat) (small : n < 12) : readAt data n = done (byteAt data n) :=
    readAt_byte (by omega)
  rw [matchMp4, if_neg (not_lt.mpr long), read 0 (by decide), done_bind, read 1 (by decide),
    done_bind, read 2 (by decide), done_bind, read 3 (by decide), done_bind]

/-- The type of the box and its brands decide whether the size is used. -/
theorem matchBrands_ends_iff (long : 12 ≤ data.length) {boxSize : Nat} (whole : boxSize % 4 = 0)
    (inside : boxSize ≤ data.length) (counted : boxSize < 2 ^ 32)
    (zeros : startsWith [0, 0, 0, 0] data = true ↔ boxSize = 0) :
    (∃ rounds answer, matchBrands rounds data boxSize = done answer) ↔
      (ZeroBox data → StopsInside data) := by
  simp only [matchBrands_eq long]
  cases ftyp : startsWith (str "ftyp") (data.drop 4) with
  | false =>
      refine iff_of_true ⟨0, none, if_neg Bool.false_ne_true⟩ fun box => ?_
      rw [box.type] at ftyp
      cases ftyp
  | true =>
      simp only [if_true]
      cases major : startsWith (str "mp4") (data.drop 8) with
      | true =>
          refine iff_of_true ⟨0, _, if_pos rfl⟩ fun box => ?_
          rw [box.major] at major
          cases major
      | false =>
          simp only [Bool.false_eq_true, if_false]
          by_cases zero : boxSize = 0
          · have box : ZeroBox data := ⟨long, zeros.mpr zero, ftyp, major⟩
            rw [zero, brandLoop_zero box]
            exact ⟨fun stops _ => stops, fun stops => stops box⟩
          · refine iff_of_true ?_ fun box => absurd (zeros.mp box.size) zero
            exact brandLoop_sized whole zero inside counted

/-- The matcher of boxes comes to an end unless the size of a box is zero and the data has no
compatible brand in time. -/
theorem matchMp4_ends_iff (inside : len ≤ data.length) (sniffed : 12 ≤ data.length → 12 ≤ len) :
    (∃ rounds answer, matchMp4 rounds data len = done answer) ↔
      (ZeroBox data → StopsInside data) := by
  by_cases short : len < 12
  · refine iff_of_true ⟨0, none, if_pos short⟩ fun box => ?_
    exact absurd (sniffed box.long) (not_le.mpr short)
  · have zeros := @startsWith_zeros data (by omega)
    have counted := boxSizeOf_lt (byteAt data 0) (byteAt data 1) (byteAt data 2) (byteAt data 3)
    simp only [matchMp4_eq inside (not_lt.mp short)]
    generalize boxSizeOf (byteAt data 0) (byteAt data 1) (byteAt data 2) (byteAt data 3) = boxSize
      at zeros counted ⊢
    by_cases bad : len < boxSize ∨ boxSize % 4 ≠ 0
    · refine iff_of_true ⟨0, none, if_pos bad⟩ fun box => ?_
      have size := zeros.mp box.size
      omega
    · simp only [if_neg bad]
      exact matchBrands_ends_iff (by omega) (by omega) (by omega) counted zeros

/-- A round of the loop ends it, or goes on nearer to the end of the data. -/
theorem feedOrHtml_step (inside : stop ≤ data.length) (before : i < stop) (rounds : Nat)
    (state : FeedState) :
    (∃ answer, feedOrHtml data stop (rounds + 1) state i = done answer) ∨
      ∃ next j, next.weight + 2 * (stop - j) < state.weight + 2 * (stop - i) ∧
        feedOrHtml data stop (rounds + 1) state i = feedOrHtml data stop rounds next j := by
  obtain ⟨c, read, -⟩ := view_cons before inside
  have within (sig : Bytes) := readsAt_eq before.le inside sig
  have starts (sig : Bytes) := startsAt_eq before.le inside sig
  have goOn {next : FeedState} {j : Nat} {step : Reading Bytes}
      (nearer : next.weight + 2 * (stop - j) < state.weight + 2 * (stop - i))
      (same : step = feedOrHtml data stop rounds next j) :
      (∃ answer, step = done answer) ∨
        ∃ next j, next.weight + 2 * (stop - j) < state.weight + 2 * (stop - i) ∧
          step = feedOrHtml data stop rounds next j :=
    .inr ⟨next, j, nearer, same⟩
  rw [feedOrHtml, if_neg (not_le.mpr before), read, done_bind]
  cases state with
  | beforeBom =>
      simp only [within, done_bind]
      refine goOn ?_ rfl
      simp only [FeedState.weight]
      split_ifs <;> omega
  | beforeMarkup =>
      dsimp only
      split_ifs <;> exact goOn (by simp only [FeedState.weight]; omega) rfl
  | markupStart =>
      dsimp only
      split_ifs <;> exact goOn (by simp only [FeedState.weight]; omega) rfl
  | commentOrDoctype =>
      simp only [within, done_bind]
      split_ifs <;> exact goOn (by simp only [FeedState.weight]; omega) rfl
  | inComment =>
      simp only [within, done_bind]
      split_ifs <;> exact goOn (by simp only [FeedState.weight]; omega) rfl
  | inDoctype =>
      dsimp only
      split_ifs <;> exact goOn (by simp only [FeedState.weight]; omega) rfl
  | inPi =>
      simp only [within, done_bind]
      split_ifs <;> exact goOn (by simp only [FeedState.weight]; omega) rfl
  | inTag =>
      simp only [starts, done_bind]
      split_ifs
      · exact .inl ⟨_, rfl⟩
      · exact .inl ⟨_, rfl⟩
      · exact goOn (by simp only [FeedState.weight]; omega) rfl
      · exact goOn (by simp only [FeedState.weight]; omega) rfl
  | inRdf rdf rss =>
      have someRss : 0 < (str "http://purl.org/rss/1.0").length := by decide
      have someRdf : 0 < (str "http://www.w3.org/1999/02/22-rdf-syntax-ns#").length := by decide
      simp only [starts, done_bind]
      generalize (str "http://purl.org/rss/1.0") = rssNs at someRss ⊢
      generalize (str "http://www.w3.org/1999/02/22-rdf-syntax-ns#") = rdfNs at someRdf ⊢
      cases isRss : startsWith rssNs (view data i stop) with
      | true =>
        simp only [if_true, done_bind]
        split_ifs
        · exact .inl ⟨_, rfl⟩
        · exact goOn (by simp only [FeedState.weight]; omega) rfl
      | false =>
        simp only [Bool.false_eq_true, if_false, done_bind]
        split_ifs
        · exact .inl ⟨_, rfl⟩
        · exact goOn (by simp only [FeedState.weight]; omega) rfl
        · exact goOn (by simp only [FeedState.weight]; omega) rfl

/-- The loop for a feed ends within so many rounds. -/
theorem feedOrHtml_done (inside : stop ≤ data.length) {rounds : Nat} {state : FeedState}
    (enough : state.weight + 2 * (stop - i) < rounds) :
    ∃ answer, feedOrHtml data stop rounds state i = done answer := by
  induction rounds generalizing state i with
  | zero => exact absurd enough (Nat.not_lt_zero _)
  | succ rounds ih =>
      by_cases ended : stop ≤ i
      · exact ⟨_, if_pos ended⟩
      · rcases feedOrHtml_step inside (not_le.mp ended) rounds state with
          final | ⟨next, j, nearer, same⟩
        · exact final
        · rw [same]
          exact ih (by omega)

/-- A text that starts with a zero has no tag. -/
theorem matchUnknownWs_zero (rest : Bytes) : Mimesniff.matchUnknownWs (0 :: rest) = none := by
  have marked : ∀ sig ∈ wsInexactMatchTypes, sig.head? = some (chr '<') := by decide
  have absent : wsInexactMatchTypes.any (startsTag (0 :: rest)) = false := by
    rw [List.any_eq_false]
    intro sig listed
    obtain ⟨more, tag⟩ := List.head?_eq_some_iff.mp (marked sig listed)
    have other : startsWith (folded sig) (folded (0 :: rest)) = false := by
      rw [tag]
      rfl
    simp [startsTag, other]
  have pure : Mimesniff.matchUnknownWs (0 :: rest) =
      if wsInexactMatchTypes.any (startsTag (0 :: rest)) then some (str "text/html")
      else none := rfl
  rw [pure, absent]
  rfl

/-- Only the matcher of boxes may find the type of a box with size zero. -/
theorem matchUnknown_zeroBox (box : ZeroBox data) (inside : len ≤ data.length) (long : 4 ≤ len)
    (rounds : Nat) : matchUnknown rounds data len true = matchMp4 rounds data len := by
  obtain ⟨rest, zeros⟩ : ∃ rest, data.take len = 0 :: 0 :: 0 :: 0 :: rest := by
    obtain ⟨rest, text⟩ := List.isPrefixOf_iff_prefix.mp box.size
    obtain ⟨left, size⟩ : ∃ left, len = left + 4 := ⟨len - 4, by omega⟩
    rw [← text, size]
    exact ⟨rest.take left, rfl⟩
  have exact_none : Mimesniff.matchUnknownExact (data.take len) true = none := by
    rw [zeros]
    rfl
  have riff : Mimesniff.matchUnknownRiff (data.take len) = none := by
    rw [zeros]
    rfl
  have bom : Mimesniff.matchUnknownBom (data.take len) = none := by
    rw [zeros]
    rfl
  have ws : Mimesniff.matchUnknownWs (data.take len) = none := by
    rw [zeros, matchUnknownWs_zero]
  rw [matchUnknown, matchUnknownExact_eq inside, matchUnknownRiff_eq inside,
    matchUnknownBom_eq inside, matchUnknownWs_eq inside, exact_none, riff, bom, ws]
  rfl

/-- The matchers of all data end when the matcher of boxes does. -/
theorem matchUnknown_ends (inside : len ≤ data.length) {rounds : Nat}
    (allowUnsafe : Bool) (ends : allowUnsafe = true → ∃ answer, matchMp4 rounds data len = done answer) :
    ∃ answer, matchUnknown rounds data len allowUnsafe = done answer := by
  rw [matchUnknown, matchUnknownExact_eq inside, matchUnknownRiff_eq inside,
    matchUnknownBom_eq inside, matchUnknownWs_eq inside]
  cases Mimesniff.matchUnknownExact (data.take len) allowUnsafe with
  | some type => exact ⟨_, rfl⟩
  | none =>
      cases Mimesniff.matchUnknownRiff (data.take len) with
      | some type => exact ⟨_, rfl⟩
      | none =>
          cases allowUnsafe with
          | false => exact ⟨_, rfl⟩
          | true =>
              obtain ⟨last, ended⟩ := ends rfl
              rw [ended]
              cases Mimesniff.matchUnknownBom (data.take len) with
              | some type => exact ⟨_, rfl⟩
              | none =>
                  cases Mimesniff.matchUnknownWs (data.take len) with
                  | some type => exact ⟨_, rfl⟩
                  | none => exact ⟨_, rfl⟩

theorem hasBinaryOctets_done (inside : len ≤ data.length) :
    hasBinaryOctets data len 0 = done (Mimesniff.hasBinaryOctets (data.take len)) := by
  have whole := @hasBinaryOctets_eq data 0 len (by omega)
  rw [Nat.zero_add] at whole
  exact whole

theorem computeUnknown_ends_iff :
    (∃ rounds answer, computeUnknown rounds (some data) = done answer) ↔
      (ZeroBox data → StopsInside data) := by
  have inside : min data.length 512 ≤ data.length := Nat.min_le_left _ _
  have boxes := @matchMp4_ends_iff data (min data.length 512) inside (by omega)
  rw [← boxes]
  have octets := hasBinaryOctets_done inside
  constructor
  · rintro ⟨rounds, answer, ended⟩
    by_cases box : ZeroBox data
    · have long := box.long
      have same := matchUnknown_zeroBox box inside (by omega) rounds
      rw [computeUnknown, same, bind_eq_done_iff] at ended
      obtain ⟨found, first, -⟩ := ended
      exact ⟨rounds, found, first⟩
    · exact boxes.mpr fun zero => absurd zero box
  · rintro ⟨rounds, last, ended⟩
    obtain ⟨found, first⟩ := matchUnknown_ends inside true fun _ => ⟨last, ended⟩
    refine ⟨rounds, ?_⟩
    rw [computeUnknown, first, done_bind]
    cases found with
    | some type => exact ⟨_, rfl⟩
    | none =>
        simp only [octets]
        exact ⟨_, rfl⟩

theorem computeTextOrBinary_ends (rounds : Nat) (data : Option Bytes) :
    ∃ answer, computeTextOrBinary rounds data = done answer := by
  cases data with
  | none => exact ⟨_, rfl⟩
  | some data =>
      have inside : min data.length 512 ≤ data.length := Nat.min_le_left _ _
      have short : ∀ entry ∈ bomMatchTypes, entry.2.length ≤ 3 := by decide
      obtain ⟨bom, marked⟩ : ∃ bom, (if 3 ≤ min data.length 512 then
          bomMatchTypes.findM? fun entry => compareUpTo data 0 entry.2 else done none) =
          done bom := by
        split
        · refine ⟨_, findM?_eq_done fun entry listed => compareUpTo_eq ?_⟩
          have size := short entry listed
          omega
        · exact ⟨none, rfl⟩
      obtain ⟨found, matched⟩ := @matchUnknown_ends data (min data.length 512) inside rounds false
        fun unsafe_types => absurd unsafe_types Bool.false_ne_true
      rw [computeTextOrBinary, marked, hasBinaryOctets_done inside, matched]
      simp only [done_bind]
      split_ifs
      · exact ⟨_, rfl⟩
      · exact ⟨_, rfl⟩
      · exact ⟨_, rfl⟩

theorem computeImage_ends (officialType : Bytes) (data : Option Bytes) :
    ∃ answer, computeImage officialType data = done answer := by
  cases data with
  | none => exact ⟨_, rfl⟩
  | some data =>
      have signed : imageTypes.findM? (fun entry => startsAt data 0 data.length entry.2) =
          done (imageTypes.find? fun entry => startsWith entry.2 (view data 0 data.length)) :=
        findM?_eq_done fun entry _ => startsAt_eq (Nat.zero_le _) le_rfl entry.2
      have webp : riffAt data data.length (str "WEBPVP") = _ := riffAt_eq le_rfl (by decide)
      rw [computeImage, signed, done_bind, webp]
      cases imageTypes.find? fun entry => startsWith entry.2 (view data 0 data.length) with
      | some entry => exact ⟨_, rfl⟩
      | none => exact ⟨_, rfl⟩

theorem computeFeedOrHtml_ends (data : Option Bytes) :
    ∃ rounds answer, computeFeedOrHtml rounds data = done answer := by
  cases data with
  | none => exact ⟨0, _, rfl⟩
  | some data =>
      have inside : min data.length 512 ≤ data.length := Nat.min_le_left _ _
      obtain ⟨type, ended⟩ := @feedOrHtml_done data 0 (min data.length 512) inside _
        .beforeBom (Nat.lt_succ_self _)
      exact ⟨_, .ok type, bind_eq_done_iff.mpr ⟨type, ended, rfl⟩⟩

/-- No sniffer fails on the data. -/
theorem computeUnknown_ok {rounds : Nat} {answer : Except SniffError Bytes}
    (ended : computeUnknown rounds (some data) = done answer) : ∃ type, answer = .ok type := by
  rw [computeUnknown, bind_eq_done_iff] at ended
  obtain ⟨found, -, ended⟩ := ended
  cases found with
  | some type =>
      cases ended
      exact ⟨type, rfl⟩
  | none =>
      obtain ⟨binary, -, ended⟩ := bind_eq_done_iff.mp ended
      cases ended
      exact ⟨_, rfl⟩

theorem computeTextOrBinary_ok {rounds : Nat} {answer : Except SniffError Bytes}
    (ended : computeTextOrBinary rounds (some data) = done answer) :
    ∃ type, answer = .ok type := by
  rw [computeTextOrBinary, bind_eq_done_iff] at ended
  obtain ⟨bom, -, ended⟩ := ended
  split at ended
  · cases ended
    exact ⟨_, rfl⟩
  · obtain ⟨binary, -, ended⟩ := bind_eq_done_iff.mp ended
    split at ended
    · cases ended
      exact ⟨_, rfl⟩
    · obtain ⟨found, -, ended⟩ := bind_eq_done_iff.mp ended
      cases ended
      exact ⟨_, rfl⟩

theorem computeImage_ok {officialType : Bytes} {answer : Except SniffError Bytes}
    (ended : computeImage officialType (some data) = done answer) : ∃ type, answer = .ok type := by
  rw [computeImage, bind_eq_done_iff] at ended
  obtain ⟨found, -, ended⟩ := ended
  cases found with
  | some entry =>
      cases ended
      exact ⟨entry.1, rfl⟩
  | none =>
      obtain ⟨webp, -, ended⟩ := bind_eq_done_iff.mp ended
      cases ended
      exact ⟨_, rfl⟩

theorem computeFeedOrHtml_ok {rounds : Nat} {answer : Except SniffError Bytes}
    (ended : computeFeedOrHtml rounds (some data) = done answer) : ∃ type, answer = .ok type := by
  rw [computeFeedOrHtml, bind_eq_done_iff] at ended
  obtain ⟨type, -, ended⟩ := ended
  cases ended
  exact ⟨type, rfl⟩

end Checked

/-- These are the choices of `mimesniff_compute_effective_type`. -/
inductive Choice
  | answer (result : Except SniffError Bytes)
  | unknown
  | textOrBinary
  | feedOrHtml
  | image (officialType : Bytes)

/-- What comes of a choice. -/
def Choice.pick {α : Type*} (answer : Except SniffError Bytes → α)
    (computeUnknown computeTextOrBinary computeFeedOrHtml : α) (computeImage : Bytes → α) :
    Choice → α
  | .answer result => answer result
  | .unknown => computeUnknown
  | .textOrBinary => computeTextOrBinary
  | .feedOrHtml => computeFeedOrHtml
  | .image officialType => computeImage officialType

/-- The choice is made for a header, and no answer without the data asks for it. -/
theorem effectiveTypeBy_pick (isImage : Bytes → Bool) (contentTypeHeader : Option Bytes)
    (sniffAllowed imageOnly : Bool) : ∃ choice : Choice,
      choice ≠ .answer (.error .needData) ∧
      ∀ (α : Type) (answer : Except SniffError Bytes → α) (unknown text feed : α)
        (image : Bytes → α), effectiveTypeBy isImage contentTypeHeader sniffAllowed imageOnly answer
          unknown text feed image = choice.pick answer unknown text feed image := by
  have notFound : Choice.answer (.error .notFound) ≠ .answer (.error .needData) := by simp
  have official (type : Bytes) : Choice.answer (.ok type) ≠ .answer (.error .needData) := by simp
  unfold effectiveTypeBy
  cases contentTypeHeader with
  | none =>
      cases sniffAllowed with
      | false => exact ⟨_, notFound, fun _ _ _ _ _ _ => rfl⟩
      | true => exact ⟨.unknown, by simp, fun _ _ _ _ _ _ => rfl⟩
  | some header =>
      dsimp only
      cases parseContentType header with
      | none =>
          cases sniffAllowed with
          | false => exact ⟨_, notFound, fun _ _ _ _ _ _ => rfl⟩
          | true => exact ⟨.unknown, by simp, fun _ _ _ _ _ _ => rfl⟩
      | some mediaType =>
          dsimp only
          split_ifs
          all_goals first
            | exact ⟨_, official _, fun _ _ _ _ _ _ => rfl⟩
            | exact ⟨.unknown, by simp, fun _ _ _ _ _ _ => rfl⟩
            | exact ⟨.textOrBinary, by simp, fun _ _ _ _ _ _ => rfl⟩
            | exact ⟨.feedOrHtml, by simp, fun _ _ _ _ _ _ => rfl⟩
            | exact ⟨.image _, by simp, fun _ _ _ _ _ _ => rfl⟩

/-- All the data is sniffed for a header. -/
def SniffsUnknown (isImage : Bytes → Bool) (contentTypeHeader : Option Bytes)
    (sniffAllowed imageOnly : Bool) : Prop :=
  effectiveTypeBy isImage contentTypeHeader sniffAllowed imageOnly (fun _ => False) True False False
    fun _ => False

/-- The effective type is computed within the data and in finite time unless all the data is
sniffed, starts with a box of size zero and has no brand in time. -/
theorem computeEffectiveType_ends_iff (isImage : Bytes → Bool) (contentTypeHeader : Option Bytes)
    (data : Option Bytes) (sniffAllowed imageOnly : Bool) :
    (∃ rounds answer, Checked.computeEffectiveType rounds isImage contentTypeHeader data
        sniffAllowed imageOnly = done answer) ↔
      (SniffsUnknown isImage contentTypeHeader sniffAllowed imageOnly →
        ∀ bytes, data = some bytes → ZeroBox bytes → StopsInside bytes) := by
  have unknown : (∃ rounds answer, Checked.computeUnknown rounds data = done answer) ↔
      ∀ bytes, data = some bytes → ZeroBox bytes → StopsInside bytes := by
    cases data with
    | none =>
        refine iff_of_true ⟨0, _, rfl⟩ fun bytes same => ?_
        cases same
    | some bytes =>
        rw [Checked.computeUnknown_ends_iff]
        simp only [Option.some.injEq, forall_eq']
  obtain ⟨choice, -, pick⟩ := effectiveTypeBy_pick isImage contentTypeHeader sniffAllowed imageOnly
  simp only [Checked.computeEffectiveType, SniffsUnknown, pick]
  cases choice with
  | answer result => exact iff_of_true ⟨0, result, rfl⟩ False.elim
  | unknown =>
      rw [Choice.pick, true_imp_iff]
      exact unknown
  | textOrBinary => exact iff_of_true ⟨0, Checked.computeTextOrBinary_ends 0 data⟩ False.elim
  | feedOrHtml => exact iff_of_true (Checked.computeFeedOrHtml_ends data) False.elim
  | image officialType =>
      exact iff_of_true ⟨0, Checked.computeImage_ends officialType data⟩ False.elim

/-- Where the call without data asks for data, the call with the data finds a type. -/
def AnswersWithData (isImage : Bytes → Bool) (contentTypeHeader : Option Bytes)
    (sniffAllowed imageOnly : Bool) (data : Bytes) : Prop :=
  (∃ rounds, Checked.computeEffectiveType rounds isImage contentTypeHeader none sniffAllowed
      imageOnly = done (.error .needData)) →
    ∃ rounds type, Checked.computeEffectiveType rounds isImage contentTypeHeader (some data)
      sniffAllowed imageOnly = done (.ok type)

/-- Where data is asked for, a type is found in it unless all the data is sniffed, starts with a
box of size zero and has no brand in time. -/
theorem computeEffectiveType_answers_iff (isImage : Bytes → Bool) (contentTypeHeader : Option Bytes)
    (sniffAllowed imageOnly : Bool) (data : Bytes) :
    AnswersWithData isImage contentTypeHeader sniffAllowed imageOnly data ↔
      (SniffsUnknown isImage contentTypeHeader sniffAllowed imageOnly →
        ZeroBox data → StopsInside data) := by
  obtain ⟨choice, answered, pick⟩ :=
    effectiveTypeBy_pick isImage contentTypeHeader sniffAllowed imageOnly
  simp only [AnswersWithData, Checked.computeEffectiveType, SniffsUnknown, pick]
  cases choice with
  | answer result =>
      refine iff_of_true ?_ False.elim
      rintro ⟨rounds, asked⟩
      rw [Choice.pick, Reading.done.injEq] at asked
      exact absurd (congrArg Choice.answer asked) answered
  | unknown =>
      simp only [Choice.pick, true_imp_iff]
      rw [← Checked.computeUnknown_ends_iff]
      constructor
      · intro answers
        obtain ⟨rounds, type, ended⟩ := answers ⟨0, rfl⟩
        exact ⟨rounds, _, ended⟩
      · rintro ⟨rounds, answer, ended⟩ _
        obtain ⟨type, rfl⟩ := Checked.computeUnknown_ok ended
        exact ⟨rounds, type, ended⟩
  | textOrBinary =>
      refine iff_of_true (fun _ => ?_) False.elim
      obtain ⟨answer, ended⟩ := Checked.computeTextOrBinary_ends 0 (some data)
      obtain ⟨type, rfl⟩ := Checked.computeTextOrBinary_ok ended
      exact ⟨0, type, ended⟩
  | feedOrHtml =>
      refine iff_of_true (fun _ => ?_) False.elim
      obtain ⟨rounds, answer, ended⟩ := Checked.computeFeedOrHtml_ends (some data)
      obtain ⟨type, rfl⟩ := Checked.computeFeedOrHtml_ok ended
      exact ⟨rounds, type, ended⟩
  | image officialType =>
      refine iff_of_true (fun _ => ?_) False.elim
      obtain ⟨answer, ended⟩ := Checked.computeImage_ends officialType (some data)
      obtain ⟨type, rfl⟩ := Checked.computeImage_ok ended
      exact ⟨0, type, ended⟩

/-- Data is asked for without a header, but no type is found in a box of size zero without a
brand. -/
theorem zeroBox_not_answered : ¬ AnswersWithData (fun _ => false) none true false
    ([0, 0, 0, 0] ++ str "ftyp" ++ [0, 0, 0, 0]) := by
  intro answers
  obtain ⟨rounds, type, ended⟩ := answers ⟨0, rfl⟩
  cases rounds with
  | zero => cases ended
  | succ rounds => cases ended

/-- A box of size zero without a brand is read beyond its twelve bytes. -/
theorem zeroBox_never_ends : ¬∃ rounds answer, Checked.computeEffectiveType rounds (fun _ => false)
    none (some ([0, 0, 0, 0] ++ str "ftyp" ++ [0, 0, 0, 0])) true false = done answer := by
  rintro ⟨rounds, answer, ended⟩
  cases rounds with
  | zero => cases ended
  | succ rounds => cases ended

end Neosurf.Mimesniff
