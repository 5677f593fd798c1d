/-
This file shows for which URL strings `nsurl_create` splits the credentials where they stand.
-/

import Neosurf.Proof.Bytes
import Neosurf.Proof.Nsurl.Authority
import Neosurf.Proof.Nsurl.Sections
import Neosurf.Proof.Nsurl.Consistent

namespace Neosurf.Nsurl

/-- A percent sign in one of the last two places of a text has too few characters behind it
to stay as it is, until a colon and more text follow. -/
def Dangles (text tail : Bytes) : Prop :=
  text.getLast? = some (chr '%') ∧ tail ≠ [] ∨ text.dropLast.getLast? = some (chr '%')

theorem dangles_cons (c d e : Byte) (rest tail : Bytes) :
    Dangles (c :: d :: e :: rest) tail ↔ Dangles (d :: e :: rest) tail := by
  simp [Dangles]

theorem normaliseChar_colon (caseless : Bool) : normaliseChar caseless (chr ':') = [chr ':'] := by
  cases caseless <;> rfl

theorem normalise_colon_cons (caseless : Bool) (tail : Bytes) :
    normalise caseless (chr ':' :: tail) = chr ':' :: normalise caseless tail := by
  rcases tail with _ | ⟨h, _ | ⟨l, rest⟩⟩
  · simp [normalise, normaliseChar_colon]
  · simp [normalise, normaliseChar_colon]
  · rw [normalise, if_neg (by decide), normaliseChar_colon]
    rfl

/-- No escape has a colon in it. -/
theorem hexToValue2Chars_colon (c : Byte) : hexToValue2Chars (chr ':') c = none ∧
    hexToValue2Chars c (chr ':') = none :=
  hexToValue2Chars_of_none rfl c

/-- The digits of an escape are no percent signs. -/
theorem hexToValue2Chars_percent {h l value : Byte} (found : hexToValue2Chars h l = some value) :
    h ≠ chr '%' ∧ l ≠ chr '%' := by
  constructor
  · rintro rfl
    cases found
  · rintro rfl
    have none : hexToValue2Chars h (chr '%') = none := by
      unfold hexToValue2Chars
      cases hexToValue h <;> rfl
    rw [none] at found
    cases found

/-- What stands behind an escape does not dangle for the escape. -/
theorem dangles_escape {c h l value : Byte} (found : hexToValue2Chars h l = some value)
    (rest tail : Bytes) : Dangles (c :: h :: l :: rest) tail ↔ Dangles rest tail := by
  obtain ⟨high, low⟩ := hexToValue2Chars_percent found
  rcases rest with _ | ⟨d, _ | ⟨e, rest⟩⟩
  · simp [Dangles, high, low]
  · simp [Dangles, low]
  · rw [dangles_cons, dangles_cons, dangles_cons]

/-- A colon divides the normal form, unless an escape dangles before it. -/
theorem normalise_colon {caseless : Bool} {text tail : Bytes}
    (clean : caseless = true ∨ ¬Dangles text tail) :
    normalise caseless (text ++ chr ':' :: tail) =
      normalise caseless text ++ chr ':' :: normalise caseless tail := by
  fun_induction normalise caseless text with
  | case1 => exact normalise_colon_cons caseless tail
  | case2 h l rest failed ih =>
      rw [List.cons_append, List.cons_append, List.cons_append, normalise, if_pos rfl, failed]
      simp only [List.cons_append] at ih ⊢
      rw [ih (clean.imp_right (mt (dangles_cons _ h l rest tail).mpr))]
  | case3 h l rest value found reserved ih =>
      rw [List.cons_append, List.cons_append, List.cons_append, normalise, if_pos rfl, found]
      simp only [reserved, if_true, List.cons_append]
      rw [ih (clean.imp_right (mt (dangles_escape found rest tail).mpr))]
  | case4 h l rest value found free ih =>
      rw [List.cons_append, List.cons_append, List.cons_append, normalise, if_pos rfl, found]
      simp only [free, List.cons_append]
      rw [ih (clean.imp_right (mt (dangles_escape found rest tail).mpr))]
      rfl
  | case5 c h l rest other ih =>
      rw [List.cons_append, List.cons_append, List.cons_append, normalise, if_neg other]
      simp only [List.cons_append] at ih
      rw [ih (clean.imp_right (mt (dangles_cons _ h l rest tail).mpr)), List.append_assoc]
  | case6 c rest short ih =>
      -- At most one more character stands between this one and the colon.
      rcases rest with _ | ⟨h, _ | ⟨l, rest⟩⟩
      · rw [List.singleton_append]
        rcases tail with _ | ⟨t, tail⟩
        · simp [normalise, normaliseChar_colon]
        · have alone : normalise caseless [] = [] := rfl
          rw [normalise.eq_2, normalise_colon_cons, alone, List.append_nil]
          split
          · rename_i percent
            subst percent
            rw [(hexToValue2Chars_colon t).1]
            rcases clean with rfl | clean
            · rfl
            · exact absurd (.inl ⟨rfl, List.cons_ne_nil t tail⟩) clean
          · simp
      · have inner : caseless = true ∨ ¬Dangles [h] tail := by
          refine clean.imp_right (mt fun dangles => ?_)
          rcases dangles with ⟨last, more⟩ | before
          · exact .inl ⟨last, more⟩
          · cases before
        have later := ih inner
        rw [List.singleton_append] at later
        rw [List.cons_append, List.singleton_append, normalise]
        split
        · rename_i percent
          subst percent
          rw [(hexToValue2Chars_colon h).2, later]
          rcases clean with rfl | clean
          · rfl
          · exact absurd (.inr rfl) clean
        · rw [later, List.append_assoc]
      · exact absurd rfl (short h l rest)

/-- The normal form of a character before a colon has no `25` in front. -/
theorem normalise_character_colon (c : Byte) (tail after : Bytes) :
    normalise false (c :: chr ':' :: tail) ≠ chr '2' :: chr '5' :: after := by
  by_cases percent : c = chr '%'
  · subst percent
    have front : ∃ rest, normalise false (chr '%' :: chr ':' :: tail) = chr '%' :: rest := by
      rcases tail with _ | ⟨t, tail⟩
      · exact ⟨_, rfl⟩
      · rw [normalise.eq_2, if_pos rfl, (hexToValue2Chars_colon t).1]
        exact ⟨_, rfl⟩
    obtain ⟨rest, front⟩ := front
    rw [front]
    exact fun same => absurd (List.cons.inj same).1 (by decide)
  · have clean : ¬Dangles [c] tail := by
      rintro (⟨last, -⟩ | before)
      · exact percent (by simpa using last)
      · cases before
    have divided : normalise false ([c] ++ chr ':' :: tail) = _ := normalise_colon (.inr clean)
    rw [List.singleton_append] at divided
    have alone : normalise false [c] = normaliseChar false c := by simp [normalise]
    rw [divided, alone, normaliseChar]
    simp only [Bool.false_eq_true, if_false]
    split
    · exact fun same => absurd (List.cons.inj (List.cons.inj same).2).1 (by decide)
    · exact fun same => absurd (List.cons.inj same).1 (by decide)

/-- A dangling escape is spelt out in the normal form of the text alone, but not before a
colon. -/
theorem not_prefix_of_dangles {text tail : Bytes} (dangles : Dangles text tail) :
    ¬normalise false text <+: normalise false (text ++ chr ':' :: tail) := by
  fun_induction normalise false text with
  | case1 =>
      rcases dangles with ⟨last, -⟩ | last
      · cases last
      · cases last
  | case2 h l rest failed ih =>
      rw [List.cons_append, List.cons_append, List.cons_append, normalise, if_pos rfl, failed]
      simp only [List.cons_append] at ih ⊢
      rw [List.prefix_cons_inj]
      exact ih ((dangles_cons _ h l rest tail).mp dangles)
  | case3 h l rest value found reserved ih =>
      rw [List.cons_append, List.cons_append, List.cons_append, normalise, if_pos rfl, found]
      simp only [reserved, if_true, List.prefix_cons_inj]
      exact ih ((dangles_escape found rest tail).mp dangles)
  | case4 h l rest value found free ih =>
      rw [List.cons_append, List.cons_append, List.cons_append, normalise, if_pos rfl, found]
      simp only [free]
      rw [if_neg (by simp), List.prefix_cons_inj]
      exact ih ((dangles_escape found rest tail).mp dangles)
  | case5 c h l rest other ih =>
      rw [List.cons_append, List.cons_append, List.cons_append, normalise, if_neg other]
      simp only [List.cons_append] at ih
      rw [List.prefix_append_right_inj]
      exact ih ((dangles_cons c h l rest tail).mp dangles)
  | case6 c rest short ih =>
      have spelt : normaliseChar false (chr '%') = [chr '%', chr '2', chr '5'] := by decide
      rcases rest with _ | ⟨h, _ | ⟨l, rest⟩⟩
      · -- The last character is the percent sign, and more text follows the colon.
        rcases dangles with ⟨last, more⟩ | before
        · obtain ⟨t, tail, rfl⟩ := List.exists_cons_of_ne_nil more
          obtain rfl : c = chr '%' := by simpa using last
          rw [List.singleton_append, normalise.eq_2, if_pos rfl, (hexToValue2Chars_colon t).1,
            normalise_colon_cons, spelt]
          rintro ⟨after, same⟩
          have second := (List.cons.inj (List.cons.inj same).2).1
          exact absurd second (by decide)
        · cases before
      · have alone : normalise false [h] = normaliseChar false h := by simp [normalise]
        rw [List.cons_append, List.singleton_append, normalise]
        by_cases percent : c = chr '%'
        · subst percent
          rw [if_pos rfl, (hexToValue2Chars_colon h).2, spelt, alone]
          rintro ⟨after, same⟩
          exact normalise_character_colon h tail _ (List.cons.inj same).2.symm
        · rcases dangles with inner | before
          · rw [if_neg percent, List.prefix_append_right_inj]
            exact ih (.inl inner)
          · exact absurd (by simpa using before) percent
      · exact absurd rfl (short h l rest)

/-- A normal form without case folding holds no NUL. -/
theorem solid_normalise_false (text : Bytes) : 0 ∉ normalise false text := by
  have char (c : Byte) : 0 ∉ normaliseChar false c := by
    revert c
    apply byte_cases
    decide
  have digit (c : Byte) : hexToValue c ≠ none → c ≠ 0 := by
    revert c
    apply byte_cases
    decide
  have free (c : Byte) : isUnreserved c = true → c ≠ 0 := by
    revert c
    apply byte_cases
    decide
  fun_induction normalise false text with
  | case1 => exact List.not_mem_nil
  | case2 h l rest failed ih =>
      rw [List.mem_cons, not_or]
      exact ⟨by decide, ih⟩
  | case3 h l rest value found reserved ih =>
      have digits : hexToValue h ≠ none ∧ hexToValue l ≠ none := by
        constructor
        · intro none
          rw [hexToValue2Chars, none] at found
          cases found
        · intro none
          rw [hexToValue2Chars, none] at found
          cases high : hexToValue h <;> simp [high] at found
      simp only [List.mem_cons, not_or]
      exact ⟨by decide, (digit h digits.1).symm, (digit l digits.2).symm, ih⟩
  | case4 h l rest value found kept ih =>
      rw [List.mem_cons, not_or]
      exact ⟨(free value (by simpa using kept)).symm, ih⟩
  | case5 c h l rest other ih =>
      rw [List.mem_append, not_or]
      exact ⟨char c, ih⟩
  | case6 c rest short ih =>
      rw [List.mem_append, not_or]
      exact ⟨char c, ih⟩

/-- A part of the buffer inside the written text. -/
theorem internBuff_writeNorm {norm : Bytes} {n : Nat} (buff : Buff) (within : n ≤ norm.length) :
    internBuff (writeNorm buff norm) 0 n = .ok (norm.take n) := by
  rw [internBuff, if_neg (by omega), Except.ok.injEq]
  apply List.ext_getElem
  · rw [List.length_map, List.length_range, List.length_take, Int.toNat_natCast]
    omega
  · intro i first second
    rw [List.length_take] at second
    have inside : i < norm.length := by omega
    rw [List.getElem_map, List.getElem_range, List.getElem_take, Int.toNat_zero, Nat.zero_add,
      writeNorm, if_pos inside, byteAt, List.getD_eq_getElem?_getD,
      List.getElem?_eq_getElem inside, Option.getD_some]

theorem byteAt_eq (s : Bytes) (pos : Nat) : byteAt s pos = s[pos]?.getD 0 :=
  List.getD_eq_getElem?_getD

/-- This is the text that the buffer holds after a section over an older text. -/
def overwritten (norm older : Bytes) : Bytes := norm ++ 0 :: older.drop (norm.length + 1)

theorem length_overwritten (norm older : Bytes) :
    (overwritten norm older).length = max (norm.length + 1) older.length := by
  simp only [overwritten, List.length_append, List.length_cons, List.length_drop]
  omega

/-- Both sections show through inside the text, and all of the buffer when it was blank. -/
theorem writeNorm_overwritten {norm older : Bytes} {buff : Buff} {i : Nat}
    (inside : i < (overwritten norm older).length ∨ ∀ j, buff j = 0) :
    writeNorm (writeNorm buff older) norm i = byteAt (overwritten norm older) i := by
  rw [length_overwritten] at inside
  simp only [writeNorm, overwritten, byteAt_eq]
  split_ifs with before here short last
  · rw [List.getElem?_append_left before]
  · rw [here, List.getElem?_append_right (Nat.le_refl _), Nat.sub_self]
    rfl
  all_goals
    have place : i - norm.length = (i - norm.length - 1) + 1 := by omega
    have back : norm.length + 1 + (i - norm.length - 1) = i := by omega
    rw [List.getElem?_append_right (by omega), place, List.getElem?_cons_succ,
      List.getElem?_drop, back]
  · rw [List.getElem?_eq_none (by omega)]
    rfl
  · rw [List.getElem?_eq_none (by omega)]
    rcases inside with inside | blank
    · omega
    · exact blank i

/-- A C string read from a place of a text is a prefix there. -/
theorem map_byteAt_eq_iff {whole text : Bytes} (solid : 0 ∉ text) (first n : Nat) :
    (List.range n).map (fun i => byteAt whole (first + i)) = text ↔
      text.length = n ∧ text <+: whole.drop first := by
  constructor
  · rintro rfl
    refine ⟨by rw [List.length_map, List.length_range], List.prefix_iff_getElem?.mpr ?_⟩
    intro i inside
    rw [List.length_map, List.length_range] at inside
    rw [List.getElem?_drop, List.getElem_map, List.getElem_range]
    have notNul : byteAt whole (first + i) ≠ 0 := fun nul =>
      solid (List.mem_map.mpr ⟨i, List.mem_range.mpr inside, nul⟩)
    have within := lt_length_of_byteAt rfl notNul
    rw [byteAt, List.getD_eq_getElem?_getD, List.getElem?_eq_getElem within, Option.getD_some]
  · rintro ⟨rfl, front⟩
    apply List.ext_getElem
    · rw [List.length_map, List.length_range]
    · intro i before inside
      have here := List.prefix_iff_getElem?.mp front i inside
      rw [List.getElem?_drop] at here
      rw [List.getElem_map, List.getElem_range, byteAt, List.getD_eq_getElem?_getD, here,
        Option.getD_some]

/-- A normal form starts with a colon exactly when its text does. -/
theorem head_normalise_colon (text : Bytes) :
    byteAt (normalise false text) 0 = chr ':' ↔ text.head? = some (chr ':') := by
  have char (c : Byte) : byteAt (normaliseChar false c) 0 = chr ':' ↔ c = chr ':' := by
    revert c
    apply byte_cases
    decide
  have free (c : Byte) : isUnreserved c = true → c ≠ chr ':' := by
    revert c
    apply byte_cases
    decide
  have front (c : Byte) (rest : Bytes) : byteAt (normaliseChar false c ++ rest) 0 =
      byteAt (normaliseChar false c) 0 := by
    rw [normaliseChar]
    simp only [Bool.false_eq_true, if_false]
    split <;> rfl
  cases text with
  | nil => simp [normalise, byteAt, chr]
  | cons c rest =>
      rw [List.head?_cons, Option.some.injEq]
      rcases rest with _ | ⟨h, _ | ⟨l, rest⟩⟩
      · rw [normalise.eq_3 _ _ _ (by simp), front, char]
      · rw [normalise.eq_3 _ _ _ (by simp), front, char]
      · rw [normalise.eq_2]
        split
        · rename_i percent
          subst percent
          cases found : hexToValue2Chars h l with
          | none => rfl
          | some value =>
              cases kept : isUnreserved value with
              | true =>
                  simp only [kept, Bool.not_false, Bool.not_true, Bool.and_false,
                    Bool.false_eq_true, if_false]
                  exact iff_of_false (free value kept) (by decide)
              | false =>
                  simp only [kept, Bool.not_false, Bool.and_true, if_true]
                  exact Iff.rfl
        · rw [front, char]

section Credentials

variable {urlS user : Bytes} {m : UrlMarkers} {url c : NsurlComponents} {buff buff' : Buff}
  {place : Nat}

/-- A URL without credentials of its own stores none. -/
theorem createCredentials_absent (text : slice urlS m.authority m.atSign = user)
    (absent : url.schemeType = .file ∨ user.head? = some (chr ':'))
    (done : createCredentials urlS m buff url = .ok (c, buff')) :
    c.username = none ∧ c.password = none := by
  unfold createCredentials at done
  simp only [text] at done
  rcases absent with file | colon
  · rw [if_pos file] at done
    cases done
    exact ⟨rfl, rfl⟩
  · rw [if_pos (Or.inr ((head_normalise_colon user).mpr colon)), ite_self] at done
    cases done
    exact ⟨rfl, rfl⟩

/-- Without a colon before the separator, all is the username. -/
theorem createCredentials_whole (text : slice urlS m.authority m.atSign = user)
    (atSign : m.atSign = m.authority + user.length) (nonempty : user ≠ [])
    (colonFirst : m.colonFirst = m.authority + place) (outside : place = 0 ∨ user.length < place)
    (type : url.schemeType ≠ .file) (head : user.head? ≠ some (chr ':'))
    (done : createCredentials urlS m buff url = .ok (c, buff')) :
    c.username = some (normalise false user) ∧ c.password = none := by
  have full : normalise false user ≠ [] := mt normalise_eq_nil.mp nonempty
  have size : ((normalise false user).length : Int) - 0 = ((normalise false user).length : Nat) := by
    omega
  unfold createCredentials at done
  simp only [text] at done
  rw [if_neg type, if_neg (not_or.mpr ⟨full, mt (head_normalise_colon user).mp head⟩),
    if_neg (by omega), if_neg (by omega), size, internBuff_writeNorm buff (Nat.le_refl _),
    List.take_length] at done
  cases done
  exact ⟨rfl, rfl⟩

/-- The text before and behind the first colon of the credentials. -/
structure Divided (m : UrlMarkers) (user first second : Bytes) : Prop where
  shape : user = first ++ chr ':' :: second
  some : first ≠ []
  clean : chr ':' ∉ first
  atSign : m.atSign = m.authority + user.length
  colonFirst : m.colonFirst = m.authority + first.length

/-- Credentials with text before the colon are not skipped. -/
theorem Divided.present {first second : Bytes} (divided : Divided m user first second) :
    ¬(normalise false user = [] ∨ byteAt (normalise false user) 0 = chr ':') := by
  obtain ⟨rfl, some, clean, -, -⟩ := divided
  obtain ⟨d, rest, rfl⟩ := List.exists_cons_of_ne_nil some
  rw [normalise_eq_nil, head_normalise_colon, not_or]
  refine ⟨List.cons_ne_nil _ _, fun colon => clean ?_⟩
  rw [List.cons_append, List.head?_cons, Option.some.injEq] at colon
  rw [colon]
  exact List.mem_cons_self

/-- A colon right before the separator is cut off the normal form. -/
theorem createCredentials_username {first : Bytes} (text : slice urlS m.authority m.atSign = user)
    (divided : Divided m user first []) (type : url.schemeType ≠ .file)
    (done : createCredentials urlS m buff url = .ok (c, buff')) :
    c.username = some ((normalise false user).take ((normalise false user).length - 1)) ∧
      c.password = none := by
  have present := divided.present
  obtain ⟨shape, some, clean, atSign, colonFirst⟩ := divided
  have positive := List.length_pos_iff.mpr some
  have length : user.length = first.length + 1 := by
    rw [shape, List.length_append, List.length_singleton]
  have norm := List.length_pos_iff.mpr (not_or.mp present).1
  have size : ((normalise false user).length : Int) - 1 =
      ((normalise false user).length - 1 : Nat) := by
    omega
  unfold createCredentials at done
  simp only [text] at done
  rw [if_neg type, if_neg present, if_neg (by omega), if_pos (by omega), size,
    internBuff_writeNorm buff (Nat.sub_le _ _)] at done
  cases done
  exact ⟨rfl, rfl⟩

/-- The places of the raw text divide the normal form. -/
theorem createCredentials_password {first second : Bytes}
    (text : slice urlS m.authority m.atSign = user) (divided : Divided m user first second)
    (more : second ≠ []) (type : url.schemeType ≠ .file)
    (done : createCredentials urlS m buff url = .ok (c, buff')) :
    second.length + 1 ≤ (normalise false user).length ∧
      c.username = some ((normalise false user).take
        ((normalise false user).length - (second.length + 1))) ∧
      c.password = some ((List.range second.length).map fun i =>
        writeNorm buff (normalise false user) (first.length + 1 + i)) := by
  have present := divided.present
  obtain ⟨shape, some, clean, atSign, colonFirst⟩ := divided
  have positive := List.length_pos_iff.mpr some
  have behind := List.length_pos_iff.mpr more
  have length : user.length = first.length + 1 + second.length := by
    rw [shape, List.length_append, List.length_cons]
    omega
  have offset : (m.colonFirst : Int) - m.authority + 1 = (first.length + 1 : Nat) := by omega
  have size : (m.atSign : Int) - m.colonFirst - 1 = second.length := by omega
  have rest : ((normalise false user).length : Int) - (m.atSign - m.colonFirst) =
      (normalise false user).length - (second.length + 1 : Nat) := by
    omega
  unfold createCredentials at done
  simp only [text] at done
  rw [if_neg type, if_neg present, if_pos (by omega), offset, size, rest] at done
  obtain ⟨password, passwordDone, done⟩ := bind_eq_ok done
  obtain ⟨username, usernameDone, done⟩ := bind_eq_ok done
  cases done
  have short : second.length + 1 ≤ (normalise false user).length := by
    rw [internBuff] at usernameDone
    split_ifs at usernameDone
    omega
  have cut : ((normalise false user).length : Int) - (second.length + 1 : Nat) =
      ((normalise false user).length - (second.length + 1) : Nat) := by
    omega
  rw [cut, internBuff_writeNorm buff (Nat.sub_le _ _)] at usernameDone
  rw [internBuff, if_neg (by omega), Int.toNat_natCast, Int.toNat_natCast] at passwordDone
  cases usernameDone
  cases passwordDone
  exact ⟨short, rfl, rfl⟩

end Credentials

/-- This is the text of the authority of a string. -/
def authorityOf (text : Bytes) : Bytes :=
  let m := getStringMarkers (cstr text) false
  slice (cstr text) m.authority m.path

/-- A string has userinfo when text stands before the first `@` of its authority. -/
def HasUserinfo (text : Bytes) : Prop :=
  chr '@' ∈ authorityOf text ∧ (authorityOf text).head? ≠ some (chr '@')

/-- This is the text before the first `@` of the authority. -/
def userinfoOf (text : Bytes) : Bytes := (authorityOf text).takeWhile (· ≠ chr '@')

/-- This is the type of the scheme of a string. -/
def schemeTypeIn (text : Bytes) : SchemeType := (getStringMarkers (cstr text) false).schemeType

/-- This is the text before the first colon of the userinfo. A file URL has no credentials, and
no colon divides those of a mailto URL. -/
def usernameOf (text : Bytes) : Bytes :=
  if schemeTypeIn text = .file then []
  else if schemeTypeIn text = .mailto then userinfoOf text
  else (userinfoOf text).takeWhile (· ≠ chr ':')

/-- This is the text behind that colon. -/
def passwordOf (text : Bytes) : Bytes :=
  if schemeTypeIn text = .file ∨ schemeTypeIn text = .mailto then []
  else ((userinfoOf text).dropWhile (· ≠ chr ':')).drop 1

/-- The credentials are stored as the normal forms of both texts. An absent one is empty. -/
def KeepsUserinfo (text : Bytes) : Prop :=
  ∀ junk url, nsurlCreate junk text = .ok url →
    url.components.username.getD [] = normalise false (usernameOf text) ∧
      url.components.password.getD [] = normalise false (passwordOf text)

/-- This is what the scheme section leaves in the buffer. -/
def schemeLeft (text : Bytes) : Bytes :=
  let m := getStringMarkers (cstr text) false
  normalise true (slice (cstr text) m.start m.schemeEnd)

/-- The places of the raw text hold in the normal form: no percent sign dangles before the
colon, and the normal form of the second text is as long as the text and stands where the text
stood, which it does when the first text keeps its length. -/
def Undisturbed (older first second : Bytes) : Prop :=
  ¬Dangles first second ∧ (second = [] ∨
    (normalise false second).length = second.length ∧ normalise false second <+:
      (overwritten (normalise false first ++ chr ':' :: normalise false second) older).drop
        (first.length + 1))

/-- The userinfo starts with no colon, and if one divides it, both texts are undisturbed; or it is
a colon alone. -/
def UserinfoFits (text : Bytes) : Prop :=
  schemeTypeIn text = .file ∨
    ((userinfoOf text).head? ≠ some (chr ':') ∧ (schemeTypeIn text = .mailto ∨
      chr ':' ∉ userinfoOf text ∨
      Undisturbed (schemeLeft text) ((userinfoOf text).takeWhile (· ≠ chr ':'))
        (((userinfoOf text).dropWhile (· ≠ chr ':')).drop 1))) ∨
    schemeTypeIn text ≠ .mailto ∧ userinfoOf text = [chr ':']

/-- The credentials of a created URL are those of its section. -/
theorem nsurlCreate_credentials {junk : Buff} {text : Bytes} {url : Nsurl}
    (created : nsurlCreate junk text = .ok url) :
    ∃ start c buff', start.schemeType = schemeTypeIn text ∧
      createCredentials (cstr text) (getStringMarkers (cstr text) false)
        (writeNorm junk (schemeLeft text)) start = .ok (c, buff') ∧
      url.components.username = c.username ∧ url.components.password = c.password := by
  obtain ⟨c, done, created⟩ := bind_eq_ok created
  split at created
  · cases created
  rw [build_components created]
  unfold createComponents at done
  dsimp only at done
  obtain ⟨⟨first, buff⟩, credentials, done⟩ := bind_eq_ok done
  obtain ⟨second, host, done⟩ := bind_eq_ok done
  have frame := createHost_frame host
  cases done
  have username : second.username = first.username := by rw [frame]
  have password : second.password = first.password := by rw [frame]
  exact ⟨_, first, buff, rfl, credentials, username, password⟩

/-- The separator stands behind the userinfo. -/
theorem userinfo_markers {text : Bytes} (info : HasUserinfo text) :
    userinfoOf text ≠ [] ∧ (∃ rest, authorityOf text = userinfoOf text ++ chr '@' :: rest) ∧
      (getStringMarkers (cstr text) false).atSign =
        (getStringMarkers (cstr text) false).authority + (userinfoOf text).length ∧
      slice (cstr text) (getStringMarkers (cstr text) false).authority
        (getStringMarkers (cstr text) false).atSign = userinfoOf text := by
  obtain ⟨mark, head⟩ := info
  obtain ⟨before, rest, shape, clean⟩ := List.eq_append_cons_of_mem mark
  have user : userinfoOf text = before := by
    rw [userinfoOf, shape, List.takeWhile_append_of_pos, List.takeWhile_cons_of_neg (by simp),
      List.append_nil]
    intro c inside
    rw [decide_eq_true_eq]
    rintro rfl
    exact clean inside
  have nonempty : before ≠ [] := by
    rintro rfl
    exact head (by rw [shape]; rfl)
  have placed := (placed_getStringMarkers (cstr text) false).atSign
  change _ = _ + (authorityOf text).firstPlace (chr '@') at placed
  rw [shape, List.firstPlace_append nonempty fun inside => clean (List.mem_of_mem_tail inside)]
    at placed
  have ordered := ordered_getStringMarkers (cstr text) false
  have whole : authorityOf text = slice (cstr text) (getStringMarkers (cstr text) false).authority
    (getStringMarkers (cstr text) false).path := rfl
  rw [user]
  refine ⟨nonempty, ⟨rest, shape⟩, placed, ?_⟩
  rw [slice_eq_take ordered.path, ← whole, shape, placed, Nat.add_sub_cancel_left, List.take_left]

/-- A text with a colon divides at the first one. -/
theorem takeWhile_colon {text : Bytes} (inside : chr ':' ∈ text) :
    text = text.takeWhile (· ≠ chr ':') ++ chr ':' :: (text.dropWhile (· ≠ chr ':')).drop 1 ∧
      chr ':' ∉ text.takeWhile (· ≠ chr ':') := by
  have clean : chr ':' ∉ text.takeWhile (· ≠ chr ':') := fun member => by
    simpa using List.mem_takeWhile_imp member
  refine ⟨?_, clean⟩
  have divided := List.takeWhile_append_dropWhile (p := (· ≠ chr ':')) (l := text)
  have stops := List.head?_dropWhile_not (· ≠ chr ':') text
  cases shape : text.dropWhile (· ≠ chr ':') with
  | nil =>
      rw [shape, List.append_nil] at divided
      rw [divided] at clean
      exact absurd inside clean
  | cons c rest =>
      rw [shape] at stops divided
      have colon : c = chr ':' := by simpa using stops
      rw [colon] at divided
      exact divided.symm

/-- A first text is not empty when the text does not start with the colon. -/
theorem takeWhile_colon_ne_nil {text : Bytes} (nonempty : text ≠ [])
    (head : text.head? ≠ some (chr ':')) : text.takeWhile (· ≠ chr ':') ≠ [] := by
  obtain ⟨c, rest, rfl⟩ := List.exists_cons_of_ne_nil nonempty
  have other : c ≠ chr ':' := fun same => head (by rw [same]; rfl)
  rw [List.takeWhile_cons_of_pos (by simpa using other)]
  exact List.cons_ne_nil _ _

/-- The first colon of the userinfo stands at its place, and one behind the userinfo does not
stand in it. -/
theorem userinfo_colon {text : Bytes} (info : HasUserinfo text)
    (head : (userinfoOf text).head? ≠ some (chr ':')) :
    (chr ':' ∉ userinfoOf text → (authorityOf text).firstPlace (chr ':') = 0 ∨
        (userinfoOf text).length < (authorityOf text).firstPlace (chr ':')) ∧
      (chr ':' ∈ userinfoOf text → (authorityOf text).firstPlace (chr ':') =
        ((userinfoOf text).takeWhile (· ≠ chr ':')).length) := by
  obtain ⟨nonempty, ⟨rest, shape⟩, -⟩ := userinfo_markers info
  constructor
  · intro absent
    by_cases later : chr ':' ∈ (authorityOf text).tail
    · obtain ⟨before, after, divided, -, -, place⟩ := List.exists_firstPlace later
      refine .inr (Nat.lt_of_not_le fun early => ?_)
      rw [place] at early
      have here : (authorityOf text)[before.length]? = some (chr ':') := by rw [divided]; simp
      rw [shape] at here
      rcases Nat.lt_or_eq_of_le early with short | last
      · rw [List.getElem?_append_left short] at here
        exact absent (List.mem_of_getElem? here)
      · rw [last, List.getElem?_append_right (Nat.le_refl _), Nat.sub_self] at here
        exact absurd (Option.some.inj here) (by decide)
    · exact .inl (List.firstPlace_eq_zero_iff.mpr later)
  · intro inside
    obtain ⟨divided, clean⟩ := takeWhile_colon inside
    have first := takeWhile_colon_ne_nil nonempty head
    rw [shape]
    conv_lhs => rw [divided]
    rw [List.append_assoc, List.cons_append]
    exact List.firstPlace_append first fun member => clean (List.mem_of_mem_tail member)

/-- Credentials with a colon are kept exactly when nothing disturbs them. -/
theorem keepsUserinfo_divided_iff {text : Bytes}
    (own : slice (cstr text) (getStringMarkers (cstr text) false).authority
      (getStringMarkers (cstr text) false).atSign = userinfoOf text)
    (divided : Divided (getStringMarkers (cstr text) false) (userinfoOf text) (usernameOf text)
      (passwordOf text)) (file : schemeTypeIn text ≠ .file)
    (created : ∀ junk, ∃ url, nsurlCreate junk text = .ok url) :
    KeepsUserinfo text ↔ Undisturbed (schemeLeft text) (usernameOf text) (passwordOf text) := by
  have shape := divided.shape
  have front : normalise false (usernameOf text) <+: normalise false (userinfoOf text) →
      ¬Dangles (usernameOf text) (passwordOf text) := by
    intro here dangles
    rw [shape] at here
    exact not_prefix_of_dangles dangles here
  have split (clean : ¬Dangles (usernameOf text) (passwordOf text)) :
      normalise false (userinfoOf text) = normalise false (usernameOf text) ++
        chr ':' :: normalise false (passwordOf text) := by
    rw [shape]
    exact normalise_colon (.inr clean)
  by_cases more : passwordOf text = []
  · have stored (junk : Buff) (url : Nsurl) (done : nsurlCreate junk text = .ok url) :
        url.components.username = some ((normalise false (userinfoOf text)).take
            ((normalise false (userinfoOf text)).length - 1)) ∧ url.components.password = none := by
      obtain ⟨start, c, buff', type, credentials, username, password⟩ := nsurlCreate_credentials done
      rw [username, password]
      rw [more] at divided
      exact createCredentials_username own divided (fun same => file (type.symm.trans same))
        credentials
    constructor
    · intro keeps
      obtain ⟨url, done⟩ := created fun _ => 0
      have name := (keeps _ url done).1
      rw [(stored _ url done).1, Option.getD_some] at name
      refine ⟨front ?_, .inl more⟩
      rw [← name]
      exact List.take_prefix _ _
    · rintro ⟨clean, -⟩ junk url done
      obtain ⟨username, password⟩ := stored junk url done
      rw [username, password, split clean, more]
      exact ⟨by simp [normalise], rfl⟩
  · have stored (junk : Buff) (url : Nsurl) (done : nsurlCreate junk text = .ok url) :
        (passwordOf text).length + 1 ≤ (normalise false (userinfoOf text)).length ∧
          url.components.username = some ((normalise false (userinfoOf text)).take
            ((normalise false (userinfoOf text)).length - ((passwordOf text).length + 1))) ∧
          url.components.password = some ((List.range (passwordOf text).length).map fun i =>
            writeNorm (writeNorm junk (schemeLeft text)) (normalise false (userinfoOf text))
              ((usernameOf text).length + 1 + i)) := by
      obtain ⟨start, c, buff', type, credentials, username, password⟩ := nsurlCreate_credentials done
      rw [username, password]
      exact createCredentials_password own divided more (fun same => file (type.symm.trans same))
        credentials
    constructor
    · intro keeps
      obtain ⟨url, done⟩ := created fun _ => 0
      obtain ⟨-, username, password⟩ := stored _ url done
      obtain ⟨name, word⟩ := keeps _ url done
      rw [username, Option.getD_some] at name
      have clean : ¬Dangles (usernameOf text) (passwordOf text) := by
        refine front ?_
        rw [← name]
        exact List.take_prefix _ _
      rw [password, Option.getD_some, split clean] at word
      simp only [writeNorm_overwritten (.inr fun _ => rfl)] at word
      exact ⟨clean, .inr ((map_byteAt_eq_iff (solid_normalise_false _) _ _).mp word)⟩
    · rintro ⟨clean, nothing | ⟨length, here⟩⟩ junk url done
      · exact absurd nothing more
      · obtain ⟨-, username, password⟩ := stored junk url done
        rw [username, password, split clean]
        constructor
        · have size : (normalise false (usernameOf text) ++
              chr ':' :: normalise false (passwordOf text)).length -
                ((passwordOf text).length + 1) = (normalise false (usernameOf text)).length := by
            rw [List.length_append, List.length_cons, length, Nat.add_sub_cancel]
          rw [size, Option.getD_some, List.take_left]
        · have within := here.length_le
          rw [length, List.length_drop] at within
          have read := (map_byteAt_eq_iff (solid_normalise_false _) _ _).mpr ⟨length, here⟩
          rw [Option.getD_some]
          refine Eq.trans (List.map_congr_left fun i member => ?_) read
          refine writeNorm_overwritten (.inl ?_)
          have inside := List.mem_range.mp member
          omega

/-- The credentials are kept exactly when the userinfo fits. -/
theorem nsurlCreate_keepsUserinfo_iff {text : Bytes} (info : HasUserinfo text)
    (created : ∀ junk, ∃ url, nsurlCreate junk text = .ok url) :
    KeepsUserinfo text ↔ UserinfoFits text := by
  obtain ⟨nonempty, ⟨rest, shape⟩, atSign, own⟩ := userinfo_markers info
  have colonFirst := (placed_getStringMarkers (cstr text) false).colonFirst
  change _ = _ + colonPlace (schemeTypeIn text) ((authorityOf text).firstPlace (chr ':'))
    at colonFirst
  by_cases file : schemeTypeIn text = .file
  · refine iff_of_true (fun junk url done => ?_) (.inl file)
    obtain ⟨start, c, buff', type, credentials, user, password⟩ := nsurlCreate_credentials done
    obtain ⟨noUser, noPassword⟩ := createCredentials_absent own (.inl (type.trans file)) credentials
    rw [user, password, noUser, noPassword, usernameOf, passwordOf, if_pos file,
      if_pos (.inl file)]
    exact ⟨rfl, rfl⟩
  by_cases head : (userinfoOf text).head? = some (chr ':')
  · -- No credentials are stored, which is right when there are none.
    obtain ⟨behind, user⟩ := List.head?_eq_some_iff.mp head
    have stored (junk : Buff) (url : Nsurl) (done : nsurlCreate junk text = .ok url) :
        url.components.username = none ∧ url.components.password = none := by
      obtain ⟨start, c, buff', -, credentials, username, password⟩ := nsurlCreate_credentials done
      rw [username, password]
      exact createCredentials_absent own (.inr head) credentials
    constructor
    · intro keeps
      obtain ⟨url, done⟩ := created fun _ => 0
      obtain ⟨noUser, noPassword⟩ := stored _ url done
      obtain ⟨username, password⟩ := keeps _ url done
      rw [noUser] at username
      rw [noPassword] at password
      have noName := normalise_eq_nil.mp username.symm
      have noWord := normalise_eq_nil.mp password.symm
      have other : schemeTypeIn text ≠ .mailto := by
        intro mailto
        rw [usernameOf, if_neg file, if_pos mailto] at noName
        exact nonempty noName
      rw [passwordOf, if_neg (not_or.mpr ⟨file, other⟩), user] at noWord
      rw [List.dropWhile_cons_of_neg (by simp), List.drop_one, List.tail_cons] at noWord
      exact .inr (.inr ⟨other, by rw [user, noWord]⟩)
    · rintro (isFile | ⟨other, -⟩ | ⟨other, alone⟩) junk url done
      · exact absurd isFile file
      · exact absurd head other
      · obtain ⟨noUser, noPassword⟩ := stored junk url done
        rw [noUser, noPassword, usernameOf, passwordOf, if_neg file, if_neg other,
          if_neg (not_or.mpr ⟨file, other⟩), alone]
        exact ⟨rfl, rfl⟩
  obtain ⟨outside, inside⟩ := userinfo_colon info head
  by_cases whole : schemeTypeIn text = .mailto ∨ chr ':' ∉ userinfoOf text
  · have place : colonPlace (schemeTypeIn text) ((authorityOf text).firstPlace (chr ':')) = 0 ∨
        (userinfoOf text).length <
          colonPlace (schemeTypeIn text) ((authorityOf text).firstPlace (chr ':')) := by
      rw [colonPlace]
      split
      · exact .inl rfl
      · rename_i other
        exact outside (whole.resolve_left other)
    refine iff_of_true (fun junk url done => ?_)
      (.inr (.inl ⟨head, whole.imp_right fun absent => .inl absent⟩))
    obtain ⟨start, c, buff', type, credentials, user, password⟩ := nsurlCreate_credentials done
    obtain ⟨name, none⟩ := createCredentials_whole own atSign nonempty colonFirst place
      (fun same => file (type.symm.trans same)) head credentials
    rw [user, password, name, none, usernameOf, passwordOf, if_neg file]
    by_cases mailto : schemeTypeIn text = .mailto
    · rw [if_pos mailto, if_pos (.inr mailto)]
      exact ⟨rfl, rfl⟩
    · have absent := whole.resolve_left mailto
      have all : ∀ c ∈ userinfoOf text, decide (c ≠ chr ':') = true := by
        intro c member
        rw [decide_eq_true_eq]
        rintro rfl
        exact absent member
      rw [if_neg mailto, if_neg (not_or.mpr ⟨file, mailto⟩), List.takeWhile_eq_self_iff.mpr all,
        List.dropWhile_eq_nil_iff.mpr all]
      exact ⟨rfl, rfl⟩
  · rw [not_or, not_not] at whole
    obtain ⟨other, colon⟩ := whole
    obtain ⟨divided, clean⟩ := takeWhile_colon colon
    have first := takeWhile_colon_ne_nil nonempty head
    rw [colonPlace, if_neg other, inside colon] at colonFirst
    have username : usernameOf text = (userinfoOf text).takeWhile (· ≠ chr ':') := by
      rw [usernameOf, if_neg file, if_neg other]
    have password : passwordOf text = ((userinfoOf text).dropWhile (· ≠ chr ':')).drop 1 := by
      rw [passwordOf, if_neg (not_or.mpr ⟨file, other⟩)]
    have fits : UserinfoFits text ↔
        Undisturbed (schemeLeft text) (usernameOf text) (passwordOf text) := by
      rw [username, password, UserinfoFits]
      constructor
      · rintro (isFile | ⟨-, mailto | absent | undisturbed⟩ | ⟨-, alone⟩)
        · exact absurd isFile file
        · exact absurd mailto other
        · exact absurd colon absent
        · exact undisturbed
        · exact absurd (by rw [alone]; rfl) head
      · exact fun undisturbed => .inr (.inl ⟨head, .inr (.inr undisturbed)⟩)
    rw [← username, ← password] at divided
    rw [← username] at clean first colonFirst
    rw [fits]
    exact keepsUserinfo_divided_iff own ⟨divided, first, clean, atSign, colonFirst⟩ file created

theorem nsurlCreate_keepsUserinfo_plain : KeepsUserinfo (str "http://u:p@h/") := by
  have fits : Undisturbed (str "http") (str "u") (str "p") :=
    ⟨by unfold Dangles; decide, .inr ⟨rfl, by decide⟩⟩
  exact (nsurlCreate_keepsUserinfo_iff ⟨by decide, by decide⟩ fun _ => ⟨_, rfl⟩).mpr
    (.inr (.inl ⟨by decide, .inr (.inr fits)⟩))

/-- The escape in the username of `http://a%41b:pw@h/` moves the password out of place. -/
theorem nsurlCreate_loses_password :
    ¬∀ text, HasUserinfo text → (∀ junk, ∃ url, nsurlCreate junk text = .ok url) →
      KeepsUserinfo text := by
  intro keeps
  obtain ⟨url, created, stored⟩ : ∃ url : Nsurl,
      nsurlCreate (fun _ => 0) (str "http://a%41b:pw@h/") = .ok url ∧
        url.components.password = some [0, 0] := ⟨_, rfl, rfl⟩
  have here := keeps (str "http://a%41b:pw@h/") ⟨by decide, by decide⟩ fun _ => ⟨_, rfl⟩
  have password := (here _ url created).2
  rw [stored] at password
  exact absurd password (by decide)

end Neosurf.Nsurl
