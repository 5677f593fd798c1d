/-
This file proves that the totals of the image cache agree with its entries and that no bitmap gets
lost, in runs that do not convert a content again whose entry still holds a bitmap.
-/

import Mathlib.Algebra.Order.BigOperators.Group.List
import Mathlib.Algebra.Order.Ring.Nat
import Mathlib.Data.List.Perm.Subperm
import Neosurf.Construction.ImageCache
import Neosurf.Proof.Bytes
import Neosurf.ToMathlib.Loops

namespace Neosurf.ImageCache

open CellMemory

/-- The sizes of the entries that hold a bitmap. -/
def sizes (xs : List (Nat × ImageCacheEntry)) : List Nat :=
  (xs.filter fun pair => pair.2.bitmap.isSome).map fun pair => pair.2.bitmapSize

/-- The bitmaps that the entries hold. -/
def held (xs : List (Nat × ImageCacheEntry)) : List Nat := xs.filterMap fun pair => pair.2.bitmap

/-- The entries form a list with one entry for a content. The totals are those of the entries that
hold a bitmap, without wrapping, and every bitmap that was put into an entry is still there or has
been destroyed. -/
def Sound (c : ImageCache) : Prop :=
  ∃ xs, c.memory.IsList ⟨c.entries, lastOf xs⟩ xs ∧ (xs.map fun pair => pair.2.content).Nodup ∧
    c.totalBitmapSize = (sizes xs).sum ∧ (sizes xs).sum < 2 ^ 64 ∧
    c.bitmapCount = (sizes xs).length ∧ c.taken.Perm (held xs ++ c.destroyed)

/-- A call does not convert a content whose entry holds a bitmap, the area of a content is an `int`,
and the number of bitmaps may grow. -/
def Fits (c : ImageCache) : ImageCacheCall → Prop
  | .add content bitmap convert _ _ =>
      c.bitmapCount < 2 ^ 31 - 1 ∧
      (0 ≤ content.width ∧ 0 ≤ content.height ∧ content.width * content.height < 2 ^ 31) ∧
      ∀ a cell, c.find content.content = some (a, cell) → cell.data.bitmap.isSome →
        ¬ (bitmap = none ∧ convert.isSome ∧ c.speculate content)
  | .getBitmap _ _ => c.bitmapCount < 2 ^ 31 - 1
  | .redraw _ _ => c.bitmapCount < 2 ^ 31 - 1
  | .remove _ => True
  | .backgroundUpdate _ => True

/-- These are the entries of the list, as the code finds them. -/
structure Listed (m : CellMemory ImageCacheEntry) (entries : Option Nat)
    (xs : List (Nat × ImageCacheEntry)) : Prop where
  list : m.IsList ⟨entries, lastOf xs⟩ xs
  addresses : ∀ pair ∈ xs, pair.1 < 2 ^ 64
  keys : (xs.map fun pair => pair.2.content).Nodup
  small : ∀ pair ∈ xs, pair.2.bitmapSize < 2 ^ 33

/-- These are the totals of the list. -/
structure Counted (c : ImageCache) (xs : List (Nat × ImageCacheEntry)) : Prop where
  total : c.totalBitmapSize = (sizes xs).sum
  count : c.bitmapCount = (sizes xs).length
  few : (sizes xs).length < 2 ^ 31
  bitmaps : c.taken.Perm (held xs ++ c.destroyed)

section Lists

variable {m : CellMemory ImageCacheEntry} {entries : Option Nat} {a : Nat}
  {e e' : ImageCacheEntry} {xs l r : List (Nat × ImageCacheEntry)}

@[simp] theorem sizes_split : sizes (l ++ (a, e) :: r) =
    sizes l ++ ((if e.bitmap.isSome then [e.bitmapSize] else []) ++ sizes r) := by
  rw [sizes, sizes, sizes, List.filter_append, List.map_append, List.filter_cons]
  split <;> simp

@[simp] theorem held_split : held (l ++ (a, e) :: r) = held l ++ (e.bitmap.toList ++ held r) := by
  rw [held, held, held, List.filterMap_append, List.filterMap_cons]
  cases e.bitmap <;> rfl

theorem Listed.length_le (listed : Listed m entries xs) : xs.length ≤ ROUNDS := by
  have inside : xs.map Prod.fst ⊆ List.range (2 ^ 64) := by
    intro a member
    obtain ⟨pair, here, rfl⟩ := List.mem_map.mp member
    exact List.mem_range.mpr (listed.addresses pair here)
  have shorter := (listed.list.nodup.subperm inside).length_le
  rwa [List.length_map, List.length_range] at shorter

theorem sum_sizes_lt (small : ∀ pair ∈ xs, pair.2.bitmapSize < 2 ^ 33)
    (few : (sizes xs).length < 2 ^ 31) : (sizes xs).sum < 2 ^ 64 := by
  have bound : ∀ size ∈ sizes xs, size ≤ 2 ^ 33 := by
    intro size member
    obtain ⟨pair, here, rfl⟩ := List.mem_map.mp member
    exact (small pair (List.mem_of_mem_filter here)).le
  have sum := List.sum_le_card_nsmul (sizes xs) (2 ^ 33) bound
  change (sizes xs).sum ≤ (sizes xs).length * 2 ^ 33 at sum
  omega

/-- A field of an entry is written that is no part of the list. -/
theorem Listed.modify (change : ImageCacheEntry → ImageCacheEntry)
    (listed : Listed m entries (l ++ (a, e) :: r)) (content : (change e).content = e.content)
    (size : (change e).bitmapSize = e.bitmapSize) :
    Listed (m.modify (some a) fun cell => { cell with data := change cell.data }) entries
      (l ++ (a, change e) :: r) where
  list := by
    have list := isList_modify change listed.list
    have last : lastOf (l ++ (a, change e) :: r) = lastOf (l ++ (a, e) :: r) := by
      rw [lastOf_append, lastOf_append, lastOf_cons, lastOf_cons]
    rwa [last]
  addresses := by
    have addresses := listed.addresses
    simp only [List.mem_append, List.mem_cons] at addresses ⊢
    rintro pair (member | rfl | member)
    · exact addresses pair (.inl member)
    · exact addresses (a, e) (.inr (.inl rfl))
    · exact addresses pair (.inr (.inr member))
  keys := by
    have keys := listed.keys
    rw [List.map_append, List.map_cons] at keys ⊢
    rwa [content]
  small := by
    have small := listed.small
    simp only [List.mem_append, List.mem_cons] at small ⊢
    rintro pair (member | rfl | member)
    · exact small pair (.inl member)
    · exact size ▸ small (a, e) (.inr (.inl rfl))
    · exact small pair (.inr (.inr member))

end Lists

section Counts

variable {c c' : ImageCache} {a bitmap old : Nat} {e e' : ImageCacheEntry}
  {l r : List (Nat × ImageCacheEntry)}

/-- An entry without a bitmap gets one. -/
theorem Counted.add (counted : Counted c (l ++ (a, e) :: r))
    (small : ∀ pair ∈ l ++ (a, e) :: r, pair.2.bitmapSize < 2 ^ 33) (room : c.bitmapCount < 2 ^ 31 - 1)
    (empty : e.bitmap = none) (full : e'.bitmap = some bitmap) (size : e'.bitmapSize = e.bitmapSize)
    (total : c'.totalBitmapSize = (c.totalBitmapSize + e.bitmapSize) % 2 ^ 64)
    (count : c'.bitmapCount = toInt32 (c.bitmapCount + 1)) (taken : c'.taken = c.taken ++ [bitmap])
    (destroyed : c'.destroyed = c.destroyed) : Counted c' (l ++ (a, e') :: r) := by
  have old_total := counted.total
  have old_count := counted.count
  have bitmaps := counted.bitmaps
  have few : (sizes (l ++ (a, e') :: r)).length < 2 ^ 31 := by
    simp only [sizes_split, empty, full, List.length_append] at old_count ⊢
    simp at old_count ⊢
    omega
  have small' : ∀ pair ∈ l ++ (a, e') :: r, pair.2.bitmapSize < 2 ^ 33 := by
    simp only [List.mem_append, List.mem_cons] at small ⊢
    rintro pair (member | rfl | member)
    · exact small pair (.inl member)
    · exact size ▸ small (a, e) (.inr (.inl rfl))
    · exact small pair (.inr (.inr member))
  have bound := sum_sizes_lt small' few
  refine ⟨?_, ?_, few, ?_⟩
  · rw [total, old_total]
    simp only [sizes_split, empty, full, size, List.sum_append] at bound ⊢
    simp at bound ⊢
    omega
  · rw [count, toInt32_eq (by omega) (by omega), old_count]
    simp [empty, full]
    omega
  · rw [taken, destroyed]
    rw [List.perm_iff_count] at bitmaps ⊢
    intro b
    have same := bitmaps b
    simp only [held_split, empty, full, Option.toList, List.count_append, List.nil_append] at same ⊢
    omega

/-- The bitmap of an entry is destroyed. -/
theorem Counted.free (counted : Counted c (l ++ (a, e) :: r))
    (small : ∀ pair ∈ l ++ (a, e) :: r, pair.2.bitmapSize < 2 ^ 33)
    (full : e.bitmap = some bitmap) (empty : e'.bitmap = none)
    (total : c'.totalBitmapSize = (c.totalBitmapSize + (2 ^ 64 - e.bitmapSize)) % 2 ^ 64)
    (count : c'.bitmapCount = toInt32 (c.bitmapCount - 1)) (taken : c'.taken = c.taken)
    (destroyed : c'.destroyed = c.destroyed ++ [bitmap]) : Counted c' (l ++ (a, e') :: r) := by
  have old_total := counted.total
  have old_count := counted.count
  have old_few := counted.few
  have bitmaps := counted.bitmaps
  have bound := sum_sizes_lt small counted.few
  have size := small (a, e) (by simp)
  refine ⟨?_, ?_, ?_, ?_⟩
  · rw [total, old_total]
    simp only [sizes_split, empty, full, List.sum_append] at bound ⊢
    simp at bound size ⊢
    omega
  · rw [count, toInt32_eq (by omega) (by omega), old_count]
    simp [empty, full]
    omega
  · simp only [sizes_split, empty, full, List.length_append] at old_few ⊢
    simp at old_few ⊢
    omega
  · rw [taken, destroyed]
    rw [List.perm_iff_count] at bitmaps ⊢
    intro b
    have same := bitmaps b
    simp only [held_split, empty, full, Option.toList, List.count_append, List.nil_append] at same ⊢
    omega

/-- The bitmap of an entry is destroyed and another one takes its place. -/
theorem Counted.replace (counted : Counted c (l ++ (a, e) :: r)) (full : e.bitmap = some old)
    (new : e'.bitmap = some bitmap) (size : e'.bitmapSize = e.bitmapSize)
    (total : c'.totalBitmapSize = c.totalBitmapSize) (count : c'.bitmapCount = c.bitmapCount)
    (taken : c'.taken = c.taken ++ [bitmap]) (destroyed : c'.destroyed = c.destroyed ++ [old]) :
    Counted c' (l ++ (a, e') :: r) := by
  have same_sizes : sizes (l ++ (a, e') :: r) = sizes (l ++ (a, e) :: r) := by
    simp [full, new, size]
  refine ⟨?_, ?_, ?_, ?_⟩
  · rw [total, same_sizes, counted.total]
  · rw [count, same_sizes, counted.count]
  · rw [same_sizes]
    exact counted.few
  · have bitmaps := counted.bitmaps
    rw [taken, destroyed]
    rw [List.perm_iff_count] at bitmaps ⊢
    intro b
    have same := bitmaps b
    simp only [held_split, full, new, Option.toList, List.count_append] at same ⊢
    omega

/-- Nothing happens to bitmaps. -/
theorem Counted.same {xs xs' : List (Nat × ImageCacheEntry)} (counted : Counted c xs)
    (same_sizes : sizes xs' = sizes xs) (same_held : held xs' = held xs)
    (total : c'.totalBitmapSize = c.totalBitmapSize) (count : c'.bitmapCount = c.bitmapCount)
    (taken : c'.taken = c.taken) (destroyed : c'.destroyed = c.destroyed) : Counted c' xs' := by
  refine ⟨?_, ?_, ?_, ?_⟩
  · rw [total, same_sizes, counted.total]
  · rw [count, same_sizes, counted.count]
  · rw [same_sizes]
    exact counted.few
  · rw [taken, destroyed, same_held]
    exact counted.bitmaps

end Counts

/-- The list and the totals of a cache. -/
structure Holds (c : ImageCache) (xs : List (Nat × ImageCacheEntry)) : Prop where
  listed : Listed c.memory c.entries xs
  counted : Counted c xs

section Calls

variable {c : ImageCache} {a content : Nat} {e : ImageCacheEntry}
  {xs l r : List (Nat × ImageCacheEntry)}

theorem Holds.sound (holds : Holds c xs) : Sound c :=
  ⟨xs, holds.listed.list, holds.listed.keys, holds.counted.total,
    sum_sizes_lt holds.listed.small holds.counted.few, holds.counted.count, holds.counted.bitmaps⟩

theorem holds_init (params : ImageCacheParameters) : Holds (init params) [] where
  listed := ⟨⟨List.nodup_nil, trivial, rfl, rfl⟩, by simp, List.nodup_nil, by simp⟩
  counted := ⟨rfl, rfl, by decide, List.Perm.refl _⟩

/-- Statistics and the age do not matter to the entries. -/
theorem Holds.congr {c' : ImageCache} (holds : Holds c xs) (memory : c'.memory = c.memory)
    (entries : c'.entries = c.entries) (total : c'.totalBitmapSize = c.totalBitmapSize)
    (count : c'.bitmapCount = c.bitmapCount) (taken : c'.taken = c.taken)
    (destroyed : c'.destroyed = c.destroyed) : Holds c' xs where
  listed := by
    rw [memory, entries]
    exact holds.listed
  counted := holds.counted.same rfl rfl total count taken destroyed

/-- A content has an entry or no entry is for it. -/
theorem Holds.find_spec (holds : Holds c xs) (content : Nat) :
    c.find content = none ∧ (∀ pair ∈ xs, pair.2.content ≠ content) ∨
      ∃ l a e r, xs = l ++ (a, e) :: r ∧ e.content = content ∧
        c.find content = some (a, ⟨lastOf l, headOf r, e⟩) := by
  have search := find_linked (fun entry : ImageCacheEntry => decide (entry.content = content))
    holds.listed.list.linked holds.listed.length_le
  have start : c.entries = headOf xs := holds.listed.list.first
  rw [ImageCache.find, start]
  rcases search with ⟨absent, others⟩ | ⟨l, a, e, r, split, -, here, found⟩
  · exact .inl ⟨absent, fun pair member => by simpa using others pair member⟩
  · rw [Option.or_none] at found
    exact .inr ⟨l, a, e, r, split, by simpa using here, found⟩

theorem Holds.cell (holds : Holds c (l ++ (a, e) :: r)) :
    c.memory a = some ⟨lastOf l, headOf r, e⟩ := holds.listed.list.split.2.2.2.1

theorem Holds.freeBitmap (holds : Holds c (l ++ (a, e) :: r)) :
    Holds (c.freeBitmap a e) (l ++ (a, { e with bitmap := none }) :: r) := by
  cases full : e.bitmap with
  | none =>
      have same : { e with bitmap := none } = e := by rw [← full]
      rw [ImageCache.freeBitmap, full, same]
      exact holds
  | some bitmap =>
      rw [ImageCache.freeBitmap, full]
      constructor
      · exact holds.listed.modify (fun _ => { e with bitmap := none }) rfl rfl
      · exact holds.counted.free holds.listed.small full rfl rfl rfl rfl rfl

/-- The cleaner goes through the entries one by one. -/
theorem Holds.cleanFrom (chosen : Nat → Bool) {rounds : Nat} (enough : r.length ≤ rounds)
    (holds : Holds c (l ++ r)) : ∃ xs, Holds (cleanFrom chosen rounds (headOf r) c) xs := by
  induction r generalizing l c rounds with
  | nil =>
      refine ⟨l ++ [], ?_⟩
      cases rounds <;> exact holds
  | cons pair rest ih =>
      obtain ⟨a, e⟩ := pair
      obtain ⟨rounds, rfl⟩ : ∃ later, rounds = later + 1 := by
        cases rounds with
        | zero => simp at enough
        | succ later => exact ⟨later, rfl⟩
      rw [List.length_cons, Nat.add_le_add_iff_right] at enough
      rw [headOf_cons, ImageCache.cleanFrom, holds.cell]
      dsimp only
      split
      · have freed := holds.freeBitmap
        rw [List.append_cons] at freed
        exact ih enough freed
      · rw [List.append_cons] at holds
        exact ih enough holds

theorem Holds.backgroundUpdate (chosen : Nat → Bool) (holds : Holds c xs) :
    ∃ xs, Holds (c.backgroundUpdate chosen) xs := by
  have start : c.entries = headOf xs := holds.listed.list.first
  rw [ImageCache.backgroundUpdate, start]
  apply Holds.cleanFrom (l := []) chosen holds.listed.length_le
  exact holds.congr rfl start.symm rfl rfl rfl rfl

theorem unlink_eq (prev next : Option Nat) :
    c.unlink prev next = { c with
      memory := (c.memory.setNext prev next).setPrev next prev
      entries := if prev.isSome then c.entries else next } := by
  cases prev <;> cases next <;> rfl

/-- An entry is taken out of the list. -/
theorem Holds.unlink (holds : Holds c (l ++ (a, e) :: r)) (empty : e.bitmap = none) :
    Holds { c.unlink (lastOf l) (headOf r) with
      memory := (c.unlink (lastOf l) (headOf r)).memory.free a } (l ++ r) := by
  rw [unlink_eq]
  have list := isList_unlink' holds.listed.list
  have last : lastOf (l ++ r) =
      if (headOf r).isSome then lastOf (l ++ (a, e) :: r) else lastOf l := list.last.symm
  constructor
  · constructor
    · rw [last]
      exact list
    · intro pair member
      apply holds.listed.addresses pair
      simp only [List.mem_append, List.mem_cons] at member ⊢
      tauto
    · have keys := holds.listed.keys
      rw [List.map_append, List.map_cons, List.nodup_middle, ← List.map_append] at keys
      exact (List.nodup_cons.mp keys).2
    · intro pair member
      apply holds.listed.small pair
      simp only [List.mem_append, List.mem_cons] at member ⊢
      tauto
  · refine holds.counted.same ?_ ?_ rfl rfl rfl rfl
    · rw [sizes_split, empty, sizes, List.filter_append, List.map_append]
      rfl
    · rw [held_split, empty, held, List.filterMap_append]
      rfl

theorem Holds.freeEntry (holds : Holds c (l ++ (a, e) :: r)) :
    Holds (c.freeEntry a ⟨lastOf l, headOf r, e⟩) (l ++ r) := by
  rw [ImageCache.freeEntry]
  split
  · have counted : Holds { c with statistics :=
        { c.statistics with totalUnrendered := c.statistics.totalUnrendered + 1 } }
        (l ++ (a, e) :: r) := holds.congr rfl rfl rfl rfl rfl rfl
    exact counted.freeBitmap.unlink rfl
  · exact holds.freeBitmap.unlink rfl

theorem Holds.remove (content : Nat) (holds : Holds c xs) : ∃ xs, Holds (c.remove content) xs := by
  rw [ImageCache.remove]
  rcases holds.find_spec content with ⟨absent, -⟩ | ⟨l, a, e, r, rfl, -, found⟩
  · rw [absent]
    exact ⟨xs, holds⟩
  · rw [found]
    exact ⟨l ++ r, holds.freeEntry⟩

/-- An entry without a bitmap gets the one that its function makes. -/
theorem Holds.convertMissing (converted : Option Nat) (holds : Holds c (l ++ (a, e) :: r))
    (empty : e.bitmap = none) (room : c.bitmapCount < 2 ^ 31 - 1) :
    ∃ e', Holds (c.convertMissing a e converted) (l ++ (a, e') :: r) := by
  rw [ImageCache.convertMissing]
  cases made : e.convert.bind fun _ => converted with
  | none => exact ⟨e, holds.congr rfl rfl rfl rfl rfl rfl⟩
  | some bitmap =>
      refine ⟨{ e with
        bitmap := some bitmap, bitmapAge := c.currentAge
        conversionCount := e.conversionCount + 1 }, ?_, ?_⟩
      · have put := holds.listed.modify (fun data => { data with bitmap := some bitmap }) rfl rfl
        exact put.modify (fun _ => { e with
          bitmap := some bitmap, bitmapAge := c.currentAge
          conversionCount := e.conversionCount + 1 }) rfl rfl
      · exact holds.counted.add holds.listed.small room empty rfl rfl rfl rfl rfl rfl

theorem Holds.getBitmap (content : Nat) (converted : Option Nat) (holds : Holds c xs)
    (room : c.bitmapCount < 2 ^ 31 - 1) : ∃ xs, Holds (c.getBitmap content converted).1 xs := by
  rw [ImageCache.getBitmap]
  rcases holds.find_spec content with ⟨absent, -⟩ | ⟨l, a, e, r, rfl, -, found⟩
  · rw [absent]
    exact ⟨xs, holds⟩
  · rw [found]
    dsimp only
    cases bitmap : e.bitmap with
    | none =>
        obtain ⟨e', later⟩ := holds.convertMissing converted bitmap room
        exact ⟨_, later⟩
    | some bitmap => exact ⟨_, holds.congr rfl rfl rfl rfl rfl rfl⟩

/-- A redraw leaves the entries in their places. -/
theorem Holds.getBitmap_at (converted : Option Nat) (holds : Holds c (l ++ (a, e) :: r))
    (found : c.find content = some (a, ⟨lastOf l, headOf r, e⟩))
    (room : c.bitmapCount < 2 ^ 31 - 1) :
    ∃ e', Holds (c.getBitmap content converted).1 (l ++ (a, e') :: r) := by
  rw [ImageCache.getBitmap, found]
  dsimp only
  cases bitmap : e.bitmap with
  | none => exact holds.convertMissing converted bitmap room
  | some bitmap => exact ⟨e, holds.congr rfl rfl rfl rfl rfl rfl⟩

theorem Holds.redraw (content : Nat) (converted : Option Nat) (holds : Holds c xs)
    (room : c.bitmapCount < 2 ^ 31 - 1) : ∃ xs, Holds (c.redraw content converted) xs := by
  rw [ImageCache.redraw]
  rcases holds.find_spec content with ⟨absent, -⟩ | ⟨l, a, e, r, rfl, -, found⟩
  · rw [absent]
    exact ⟨xs, holds⟩
  · obtain ⟨e', later⟩ := holds.getBitmap_at converted found room
    rw [found]
    dsimp only
    split
    · exact ⟨_, later⟩
    · refine ⟨l ++ (a, { e' with
        redrawCount := e'.redrawCount + 1
        redrawAge := (c.getBitmap content converted).1.currentAge }) :: r, ?_, ?_⟩
      · exact later.listed.modify (fun data => { data with
          redrawCount := data.redrawCount + 1
          redrawAge := (c.getBitmap content converted).1.currentAge }) rfl rfl
      · refine later.counted.same ?_ ?_ rfl rfl rfl rfl
        · rw [sizes_split, sizes_split]
        · rw [held_split, held_split]

/-- A bitmap that is passed takes the place of another one, or is a new one. -/
theorem Holds.supply (new : Nat) (holds : Holds c (l ++ (a, e) :: r))
    (room : c.bitmapCount < 2 ^ 31 - 1) : ∃ xs, Holds (c.supply new a e) xs := by
  cases Option.eq_none_or_eq_some e.bitmap with
  | inl empty =>
      have supplied : c.supply new a e = (c.statsBitmapAdd a e).setBitmap a (some new) := by
        unfold ImageCache.supply
        rw [empty]
      rw [supplied]
      have noted := holds.listed.modify (fun _ => { e with
        bitmapAge := c.currentAge, conversionCount := e.conversionCount + 1 }) rfl rfl
      exact ⟨_, noted.modify (fun data => { data with bitmap := some new }) rfl rfl,
        holds.counted.add holds.listed.small room empty rfl rfl rfl rfl rfl rfl⟩
  | inr full =>
      obtain ⟨old, full⟩ := full
      have supplied : c.supply new a e = (c.destroy old).setBitmap a (some new) := by
        unfold ImageCache.supply
        rw [full]
      rw [supplied]
      exact ⟨_, holds.listed.modify (fun data => { data with bitmap := some new }) rfl rfl,
        holds.counted.replace full rfl rfl rfl rfl rfl rfl⟩

/-- A content with an entry gets a bitmap, or is converted when its entry holds none. -/
theorem Holds.addTo {given : ImageContent} {bitmap convert converted : Option Nat}
    (holds : Holds c (l ++ (a, e) :: r)) (room : c.bitmapCount < 2 ^ 31 - 1)
    (fits : e.bitmap.isSome → ¬ (bitmap = none ∧ convert.isSome ∧ c.speculate given)) :
    ∃ xs, Holds (c.addTo given bitmap convert converted a e) xs := by
  have stored : Holds (c.store a { e with convert }) (l ++ (a, { e with convert }) :: r) := by
    refine ⟨holds.listed.modify (fun _ => { e with convert }) rfl rfl, ?_⟩
    refine holds.counted.same ?_ ?_ rfl rfl rfl rfl
    · rw [sizes_split, sizes_split]
    · rw [held_split, held_split]
  unfold ImageCache.addTo
  dsimp only
  cases bitmap with
  | some new => exact stored.supply new room
  | none =>
      dsimp only
      split
      · rename_i speculates
        rw [Bool.and_eq_true] at speculates
        have empty : e.bitmap = none := by
          rw [← Option.not_isSome_iff_eq_none]
          intro full
          exact fits full ⟨rfl, speculates⟩
        have put :=
          stored.listed.modify (fun data => { data with bitmap := converted }) rfl rfl
        cases converted with
        | some new =>
            exact ⟨_, put.modify (fun _ => { e with
                convert, bitmap := some new, bitmapAge := c.currentAge
                conversionCount := e.conversionCount + 1 }) rfl rfl,
              stored.counted.add stored.listed.small room empty rfl rfl rfl rfl rfl rfl⟩
        | none =>
            refine ⟨_, put, stored.counted.same ?_ ?_ rfl rfl (List.append_nil _) rfl⟩
            · rw [sizes_split, sizes_split, empty]
            · rw [held_split, held_split, empty]
      · exact ⟨_, stored⟩

/-- The area of a content is the number of its pixels. -/
theorem bitmapSizeOf_lt {given : ImageContent} (wide : 0 ≤ given.width) (high : 0 ≤ given.height)
    (area : given.width * given.height < 2 ^ 31) : bitmapSizeOf given < 2 ^ 33 := by
  have positive := Int.mul_nonneg wide high
  rw [bitmapSizeOf, toInt32_eq (by omega) area]
  omega

/-- A content without an entry gets one. -/
theorem Holds.link {new : Nat} (holds : Holds c xs) (address : new < 2 ^ 64)
    (unused : c.memory new = none) (absent : ∀ pair ∈ xs, pair.2.content ≠ e.content)
    (empty : e.bitmap = none) (small : e.bitmapSize < 2 ^ 33) :
    Holds (c.link new e) ((new, e) :: xs) := by
  have fresh : new ∉ xs.map Prod.fst := by
    intro member
    obtain ⟨l, data, r, split⟩ := exists_split member
    have listed := holds.listed.list
    rw [split] at listed
    have used := listed.split.2.2.2.1
    rw [unused] at used
    cases used
  have list := isList_cons (y := e) holds.listed.list fresh
  constructor
  · constructor
    · rw [lastOf_cons]
      exact list
    · rintro pair (_ | ⟨_, member⟩)
      · exact address
      · exact holds.listed.addresses pair member
    · rw [List.map_cons, List.nodup_cons]
      refine ⟨fun member => ?_, holds.listed.keys⟩
      obtain ⟨pair, here, same⟩ := List.mem_map.mp member
      exact absent pair here same
    · rintro pair (_ | ⟨_, member⟩)
      · exact small
      · exact holds.listed.small pair member
  · refine holds.counted.same ?_ ?_ rfl rfl rfl rfl
    · rw [sizes, List.filter_cons, empty]
      rfl
    · rw [held, List.filterMap_cons, empty]
      rfl

theorem Holds.add {given : ImageContent} {bitmap convert converted : Option Nat}
    {calloc : Option UInt64} (holds : Holds c xs)
    (fits : Fits c (.add given bitmap convert calloc converted)) :
    ∃ xs, Holds (c.add given bitmap convert calloc converted) xs := by
  obtain ⟨room, ⟨wide, high, area⟩, fits⟩ := fits
  have aged : Holds { c with currentAge := (c.currentAge + 1) % 2 ^ 32 } xs :=
    holds.congr rfl rfl rfl rfl rfl rfl
  unfold ImageCache.add
  dsimp only
  rcases holds.find_spec given.content with ⟨missing, absent⟩ | ⟨l, a, e, r, rfl, -, found⟩
  · have missing' : ImageCache.find { c with currentAge := (c.currentAge + 1) % 2 ^ 32 }
        given.content = none := missing
    rw [missing']
    cases calloc with
    | none => exact ⟨xs, aged⟩
    | some new =>
        dsimp only
        split
        · exact ⟨xs, aged⟩
        · rename_i unused
          rw [Option.not_isSome_iff_eq_none] at unused
          have linked := aged.link (e := { content := given.content, bitmapSize := bitmapSizeOf given })
            new.toNat_lt unused absent rfl (bitmapSizeOf_lt wide high area)
          exact linked.addTo (l := []) room (by simp)
  · have found' : ImageCache.find { c with currentAge := (c.currentAge + 1) % 2 ^ 32 }
        given.content = some (a, ⟨lastOf l, headOf r, e⟩) := found
    rw [found']
    exact aged.addTo room (fits a _ found)

theorem Holds.call {k : ImageCacheCall} (holds : Holds c xs) (fits : Fits c k) :
    ∃ xs, Holds (c.call k) xs := by
  cases k with
  | add given bitmap convert calloc converted => exact holds.add fits
  | getBitmap content converted => exact holds.getBitmap content converted fits
  | redraw content converted => exact holds.redraw content converted fits
  | remove content => exact holds.remove content
  | backgroundUpdate chosen => exact holds.backgroundUpdate chosen

end Calls

/-- A call always leads to another cache. -/
def step (c : ImageCache) (k : ImageCacheCall) : Option ImageCache := some (c.call k)

theorem run_step (c : ImageCache) (calls : List ImageCacheCall) :
    GuardedRuns.run step c calls = some (calls.foldl ImageCache.call c) := by
  induction calls generalizing c with
  | nil => rfl
  | cons k rest ih => exact ih (c.call k)

/-- The totals and the list stay sound, and no bitmap gets lost, in every run whose calls fit: no
content is converted again whose entry holds a bitmap, and the sizes are those of an `int`. -/
theorem sound_runs (params : ImageCacheParameters) (calls : List ImageCacheCall)
    (fits : GuardedRuns.Meets step Fits (init params) calls) :
    Sound (calls.foldl ImageCache.call (init params)) := by
  have keeps : ∀ (c : ImageCache) (k : ImageCacheCall) (c' : ImageCache), (∃ xs, Holds c xs) →
      Fits c k → step c k = some c' → ∃ xs, Holds c' xs := by
    rintro c k c' ⟨xs, holds⟩ fits taken
    cases taken
    exact holds.call fits
  obtain ⟨xs, holds⟩ :=
    GuardedRuns.run_keeps keeps calls ⟨[], holds_init params⟩ fits (run_step _ calls)
  exact holds.sound

/-- A content gets its bitmap from a conversion, is drawn and removed. -/
theorem sound_runs_converted :
    Sound ([.add ⟨1, 20, 10, 5⟩ none (some 7) (some 100) (some 9), .redraw 1 none,
      .backgroundUpdate fun _ => true, .remove 1].foldl ImageCache.call
        (init ⟨30, 1000, 10, 100⟩)) := by
  apply sound_runs
  have absent : (init ⟨30, 1000, 10, 100⟩).find 1 = none := rfl
  refine ⟨⟨by decide, by decide, fun a cell found => ?_⟩, fun c first => ⟨?_, fun c' second => ?_⟩⟩
  · rw [absent] at found
    cases found
  · cases first
    change ImageCache.bitmapCount _ < 2 ^ 31 - 1
    decide
  · exact ⟨trivial, fun c'' third => ⟨trivial, fun _ _ => trivial⟩⟩

/-- A content whose entry holds a bitmap is added again and converted. Its bitmap gets lost and its
size counts twice. -/
theorem converted_again_loses_bitmap :
    ¬ Sound ([.add ⟨1, 20, 10, 5⟩ (some 8) none (some 100) none,
      .add ⟨1, 20, 10, 5⟩ none (some 7) none (some 9)].foldl ImageCache.call
        (init ⟨30, 1000, 10, 100⟩)) := by
  rintro ⟨xs, list, -, total, -⟩
  have first : headOf xs = some 100 := list.first.symm
  obtain ⟨l, e, r, rfl⟩ := exists_split (headOf_mem first)
  have here := list.split.2.2.2.1
  have cell : ImageCache.memory ([.add ⟨1, 20, 10, 5⟩ (some 8) none (some 100) none,
      .add ⟨1, 20, 10, 5⟩ none (some 7) none (some 9)].foldl ImageCache.call
        (init ⟨30, 1000, 10, 100⟩)) 100 =
      some ⟨none, none, ⟨1, some 9, some 7, 0, 0, 800, 2, 2⟩⟩ := rfl
  rw [cell, Option.some.injEq, LinkedCell.mk.injEq] at here
  obtain ⟨no_prev, no_next, rfl⟩ := here
  obtain rfl := lastOf_eq_none.mp no_prev.symm
  obtain rfl := headOf_eq_none.mp no_next.symm
  exact absurd total (by decide)

end Neosurf.ImageCache
