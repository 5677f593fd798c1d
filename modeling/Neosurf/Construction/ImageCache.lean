/-
This file models the image cache of `content/handlers/image/image_cache.c`: its list of entries in
memory, its totals and what it does with bitmaps.
-/

import Neosurf.Construction.Bytes
import Neosurf.ToMathlib.LinkedCells

namespace Neosurf

/-- These are the fields of `struct content` that the cache reads. The content is told from others
by its address. -/
structure ImageContent where
  content : Nat
  width : Int
  height : Int
  size : Nat
  deriving Repr

/-- This is `struct image_cache_entry_s` without its links. Bitmaps and functions are addresses. -/
structure ImageCacheEntry where
  content : Nat
  bitmap : Option Nat := none
  convert : Option Nat := none
  redrawCount : Nat := 0
  redrawAge : Nat := 0
  bitmapSize : Nat
  bitmapAge : Nat := 0
  conversionCount : Nat := 0
  deriving DecidableEq, Repr

/-- This is `struct image_cache_parameters`. -/
structure ImageCacheParameters where
  bgCleanTime : Nat
  limit : Nat
  hysteresis : Nat
  speculativeSmall : Nat
  deriving Repr

/-- These are the statistics that only get printed. -/
structure ImageCacheStatistics where
  maxBitmapSize : Nat := 0
  maxBitmapSizeCount : Int := 0
  maxBitmapCount : Int := 0
  maxBitmapCountSize : Nat := 0
  missCount : Nat := 0
  missSize : Nat := 0
  hitCount : Nat := 0
  hitSize : Nat := 0
  failCount : Nat := 0
  failSize : Nat := 0
  totalUnrendered : Nat := 0
  specultiveMissCount : Nat := 0
  totalExtraConversions : Nat := 0
  totalExtraConversionsCount : Nat := 0
  peakConversions : Nat := 0
  peakConversionsSize : Nat := 0
  deriving DecidableEq, Repr

/-- This is `struct image_cache_s` in memory, with the bitmaps that were put into entries and those
that were destroyed so far. -/
structure ImageCache where
  params : ImageCacheParameters
  currentAge : Nat
  memory : CellMemory ImageCacheEntry
  entries : Option Nat
  totalBitmapSize : Nat
  bitmapCount : Int
  statistics : ImageCacheStatistics
  taken : List Nat
  destroyed : List Nat

namespace ImageCacheStatistics

/-- This is the part of `image_cache_stats_bitmap_add` that keeps the maxima. -/
def bitmapAdd (s : ImageCacheStatistics) (total : Nat) (count : Int) (centry : ImageCacheEntry) :
    ImageCacheStatistics :=
  let s := if s.maxBitmapSize < total then
    { s with maxBitmapSize := total, maxBitmapSizeCount := count } else s
  let s := if s.maxBitmapCount < count then
    { s with maxBitmapCount := count, maxBitmapCountSize := total } else s
  let s := if centry.conversionCount = 2 then
    { s with totalExtraConversionsCount := s.totalExtraConversionsCount + 1 } else s
  let s := if 1 < centry.conversionCount then
    { s with totalExtraConversions := s.totalExtraConversions + 1 } else s
  if s.peakConversions < centry.conversionCount ∨
      centry.conversionCount = s.peakConversions ∧ s.peakConversionsSize < centry.bitmapSize then
    { s with peakConversions := centry.conversionCount, peakConversionsSize := centry.bitmapSize }
  else s

def miss (s : ImageCacheStatistics) (size : Nat) : ImageCacheStatistics :=
  { s with missCount := s.missCount + 1, missSize := s.missSize + size }

def hit (s : ImageCacheStatistics) (size : Nat) : ImageCacheStatistics :=
  { s with hitCount := s.hitCount + 1, hitSize := s.hitSize + size }

def fail (s : ImageCacheStatistics) (size : Nat) : ImageCacheStatistics :=
  { s with failCount := s.failCount + 1, failSize := s.failSize + size }

end ImageCacheStatistics

namespace ImageCache

/-- A list has no more entries than there are addresses. -/
def ROUNDS : Nat := 2 ^ 64

/-- This is `image_cache_init` when there is memory. -/
def init (params : ImageCacheParameters) : ImageCache where
  params := params
  currentAge := 0
  memory := fun _ => none
  entries := none
  totalBitmapSize := 0
  bitmapCount := 0
  statistics := {}
  taken := []
  destroyed := []

variable (c : ImageCache)

/-- This is `image_cache__find`. -/
def find (content : Nat) : Option (Nat × LinkedCell ImageCacheEntry) :=
  c.memory.find (fun entry => entry.content = content) ROUNDS c.entries

/-- The fields of an entry are written. -/
def store (a : Nat) (centry : ImageCacheEntry) : ImageCache :=
  { c with memory := c.memory.modify (some a) fun cell => { cell with data := centry } }

/-- This is `image_cache_stats_bitmap_add`. -/
def statsBitmapAdd (a : Nat) (centry : ImageCacheEntry) : ImageCache :=
  let centry : ImageCacheEntry :=
    { centry with bitmapAge := c.currentAge, conversionCount := centry.conversionCount + 1 }
  let total := (c.totalBitmapSize + centry.bitmapSize) % 2 ^ 64
  let count := toInt32 (c.bitmapCount + 1)
  { c.store a centry with
    totalBitmapSize := total
    bitmapCount := count
    statistics := c.statistics.bitmapAdd total count centry }

/-- A bitmap is put into an entry. -/
def setBitmap (a : Nat) (bitmap : Option Nat) : ImageCache :=
  { c with
    memory := c.memory.modify (some a) fun cell => { cell with data := { cell.data with bitmap } }
    taken := c.taken ++ bitmap.toList }

/-- This is `guit->bitmap->destroy`. -/
def destroy (bitmap : Nat) : ImageCache := { c with destroyed := c.destroyed ++ [bitmap] }

/-- This is `image_cache__link`. -/
def link (a : Nat) (centry : ImageCacheEntry) : ImageCache :=
  { c with
    memory := CellMemory.setPrev (Function.update c.memory a (some ⟨none, c.entries, centry⟩))
      c.entries (some a)
    entries := some a }

/-- This is `image_cache__unlink`. -/
def unlink (prev next : Option Nat) : ImageCache :=
  match prev with
  | none =>
      match next with
      | some _ => { c with memory := c.memory.setPrev next prev, entries := next }
      | none => { c with entries := none }
  | some _ =>
      match next with
      | some _ => { c with memory := (c.memory.setNext prev next).setPrev next prev }
      | none => { c with memory := c.memory.setNext prev next }

/-- This is `image_cache__free_bitmap`. -/
def freeBitmap (a : Nat) (centry : ImageCacheEntry) : ImageCache :=
  match centry.bitmap with
  | none => c
  | some bitmap =>
      { (c.destroy bitmap).store a { centry with bitmap := none } with
        totalBitmapSize := (c.totalBitmapSize + (2 ^ 64 - centry.bitmapSize)) % 2 ^ 64
        bitmapCount := toInt32 (c.bitmapCount - 1)
        statistics := if centry.redrawCount = 0 then
          { c.statistics with specultiveMissCount := c.statistics.specultiveMissCount + 1 }
          else c.statistics }

/-- This is `image_cache__free_entry`. -/
def freeEntry (a : Nat) (cell : LinkedCell ImageCacheEntry) : ImageCache :=
  let c := if cell.data.redrawCount = 0 then
    { c with statistics :=
      { c.statistics with totalUnrendered := c.statistics.totalUnrendered + 1 } } else c
  let c := (c.freeBitmap a cell.data).unlink cell.prev cell.next
  { c with memory := c.memory.free a }

/-- The cleaner considers an entry that was not drawn lately while there are too many bytes. -/
def cleans (centry : ImageCacheEntry) : Bool :=
  c.params.bgCleanTime < (c.currentAge + (2 ^ 32 - centry.redrawAge)) % 2 ^ 32 &&
    (c.params.limit + (2 ^ 64 - c.params.hysteresis)) % 2 ^ 64 < c.totalBitmapSize

/-- This is the loop of `image_cache__clean`. What `rand` gives decides about each entry. -/
def cleanFrom (chosen : Nat → Bool) : Nat → Option Nat → ImageCache → ImageCache
  | 0, _, c => c
  | _, none, c => c
  | rounds + 1, some a, c =>
      match c.memory a with
      | none => c
      | some cell =>
          cleanFrom chosen rounds cell.next
            (if c.cleans cell.data && chosen a then c.freeBitmap a cell.data else c)

/-- This is `image_cache__background_update`. -/
def backgroundUpdate (chosen : Nat → Bool) : ImageCache :=
  let c := { c with currentAge := (c.currentAge + c.params.bgCleanTime) % 2 ^ 32 }
  cleanFrom chosen ROUNDS c.entries c

/-- This is `image_cache_speculate`. -/
def speculate (content : ImageContent) : Bool :=
  c.totalBitmapSize < c.params.limit && content.size ≤ c.params.speculativeSmall

/-- An entry without a bitmap gets one that its function has made, or fails. A missing function
makes none. -/
def convertMissing (a : Nat) (centry : ImageCacheEntry) (converted : Option Nat) : ImageCache :=
  match centry.convert.bind fun _ => converted with
  | some bitmap =>
      let c := (c.setBitmap a (some bitmap)).statsBitmapAdd a { centry with bitmap := some bitmap }
      { c with statistics := c.statistics.miss centry.bitmapSize }
  | none => { c with statistics := c.statistics.fail centry.bitmapSize }

/-- This is `image_cache_get_bitmap`. The result of the conversion is given. -/
def getBitmap (content : Nat) (converted : Option Nat) : ImageCache × Option Nat :=
  match c.find content with
  | none => (c, none)
  | some (a, cell) =>
      match cell.data.bitmap with
      | none => (c.convertMissing a cell.data converted, cell.data.convert.bind fun _ => converted)
      | some bitmap =>
          ({ c with statistics := c.statistics.hit cell.data.bitmapSize }, some bitmap)

/-- This is `image_cache_redraw` without the plot. -/
def redraw (content : Nat) (converted : Option Nat) : ImageCache :=
  match c.find content with
  | none => c
  | some (a, _) =>
      match (c.getBitmap content converted).2 with
      | none => (c.getBitmap content converted).1
      | some _ =>
          let c := (c.getBitmap content converted).1
          { c with memory := c.memory.modify (some a) fun cell =>
            { cell with data :=
              { cell.data with redrawCount := cell.data.redrawCount + 1, redrawAge := c.currentAge } } }

/-- The size of a bitmap is a product of two `int`s, made unsigned. -/
def bitmapSizeOf (content : ImageContent) : Nat :=
  (toInt32 (content.width * content.height) * 4 % 2 ^ 64).toNat

/-- This is the part of `image_cache_add` for a bitmap that is passed. -/
def supply (new a : Nat) (centry : ImageCacheEntry) : ImageCache :=
  match centry.bitmap with
  | some old => (c.destroy old).setBitmap a (some new)
  | none => (c.statsBitmapAdd a centry).setBitmap a (some new)

/-- This is `image_cache_add` once the content has an entry. -/
def addTo (content : ImageContent) (bitmap convert converted : Option Nat) (a : Nat)
    (centry : ImageCacheEntry) : ImageCache :=
  let centry := { centry with convert }
  let c := c.store a centry
  match bitmap with
  | some new => c.supply new a centry
  | none =>
      if convert.isSome && c.speculate content then
        let c := c.setBitmap a converted
        match converted with
        | some new => c.statsBitmapAdd a { centry with bitmap := some new }
        | none =>
            { c with statistics := { c.statistics with failCount := c.statistics.failCount + 1 } }
      else c

/-- This is `image_cache_add`. The address for a new entry comes from `calloc`, which fails or gives
one that is not in use. -/
def add (content : ImageContent) (bitmap convert : Option Nat) (calloc : Option UInt64)
    (converted : Option Nat) : ImageCache :=
  let c := { c with currentAge := (c.currentAge + 1) % 2 ^ 32 }
  match c.find content.content with
  | some (a, cell) => c.addTo content bitmap convert converted a cell.data
  | none =>
      match calloc with
      | none => c
      | some a =>
          if (c.memory a.toNat).isSome then c
          else
            let centry : ImageCacheEntry :=
              { content := content.content, bitmapSize := bitmapSizeOf content }
            (c.link a.toNat centry).addTo content bitmap convert converted a.toNat centry

/-- This is `image_cache_remove`. -/
def remove (content : Nat) : ImageCache :=
  match c.find content with
  | none => c
  | some (a, cell) => c.freeEntry a cell

end ImageCache

/-- These are the calls of the cache, with what the conversions and random choices give. -/
inductive ImageCacheCall where
  | add (content : ImageContent) (bitmap convert : Option Nat) (calloc : Option UInt64)
      (converted : Option Nat)
  | getBitmap (content : Nat) (converted : Option Nat)
  | redraw (content : Nat) (converted : Option Nat)
  | remove (content : Nat)
  | backgroundUpdate (chosen : Nat → Bool)

/-- The cache after a call. -/
def ImageCache.call (c : ImageCache) : ImageCacheCall → ImageCache
  | .add content bitmap convert calloc converted => c.add content bitmap convert calloc converted
  | .getBitmap content converted => (c.getBitmap content converted).1
  | .redraw content converted => c.redraw content converted
  | .remove content => c.remove content
  | .backgroundUpdate chosen => c.backgroundUpdate chosen

end Neosurf
