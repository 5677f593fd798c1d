/-
This file proves which border is left of the borders that meet at a cell.
-/

import Mathlib.Data.Prod.Lex
import Neosurf.Construction.LayoutTable

namespace Neosurf.TableBorder

open Css (UnitCtx len2devicePx)

variable {ctx : UnitCtx} {a b x y : Candidate}

/-- The preferred styles come first. -/
def styleOrder : List BorderStyle :=
  [.double, .solid, .dashed, .dotted, .ridge, .outset, .groove, .inset]

/-- The preferred sources come first. -/
def sourceOrder : List BoxType := [.tableCell, .tableRow, .tableRowGroup, .table]

def deviceWidth (ctx : UnitCtx) (x : Candidate) : Int := len2devicePx ctx none x.1.width x.1.unit

/-- These are the rules of section 17.6.2.1 for the conflict of two borders. -/
def Beats (ctx : UnitCtx) (x y : Candidate) : Prop :=
  y.1.style ≠ .hidden ∧ x.1.style ≠ .none ∧
    (x.1.style = .hidden ∨ y.1.style = .none ∨ deviceWidth ctx y < deviceWidth ctx x ∨
      deviceWidth ctx y = deviceWidth ctx x ∧
        (styleOrder.idxOf x.1.style < styleOrder.idxOf y.1.style ∨
          x.1.style = y.1.style ∧ sourceOrder.idxOf x.2 < sourceOrder.idxOf y.2))

/-- Borders are compared by their class first, and ordinary ones then by width, style and source. -/
def key (ctx : UnitCtx) (x : Candidate) : Int ×ₗ Int ×ₗ Int ×ₗ Int :=
  if x.1.style = .hidden then toLex (2, toLex (0, toLex (0, 0)))
  else if x.1.style = .none then toLex (0, toLex (0, toLex (0, 0)))
  else toLex (1, toLex (deviceWidth ctx x, toLex (styleImpact x.1.style, sourceImpact x.2)))

theorem key_of_ordinary (visible : x.1.style ≠ .hidden) (present : x.1.style ≠ .none) :
    key ctx x = toLex (1, toLex (deviceWidth ctx x,
      toLex (styleImpact x.1.style, sourceImpact x.2))) := by
  rw [key, if_neg visible, if_neg present]

/-- Hidden beats everything. -/
theorem key_le_of_hidden (hidden : x.1.style = .hidden) (y : Candidate) : key ctx y ≤ key ctx x := by
  rw [key, key, if_pos hidden]
  split
  next => exact le_rfl
  next =>
      split
      next => exact Prod.Lex.toLex_le_toLex.2 (.inl (by simp))
      next => exact Prod.Lex.toLex_le_toLex.2 (.inl (by simp))

/-- None beats nothing. -/
theorem key_le_of_none (absent : x.1.style = .none) (y : Candidate) : key ctx x ≤ key ctx y := by
  rw [key, key, if_neg (by rw [absent]; decide), if_pos absent]
  split
  next => exact Prod.Lex.toLex_le_toLex.2 (.inl (by simp))
  next =>
      split
      next => exact le_rfl
      next => exact Prod.Lex.toLex_le_toLex.2 (.inl (by simp))

/-- Ordinary borders are compared by width, style and source. -/
theorem ordinary_le_iff {wa wb sa sb ra rb : Int} :
    (toLex (1, toLex (wa, toLex (sa, ra))) : Int ×ₗ Int ×ₗ Int ×ₗ Int) ≤
        toLex (1, toLex (wb, toLex (sb, rb))) ↔
      wa < wb ∨ wa = wb ∧ (sa < sb ∨ sa = sb ∧ ra ≤ rb) := by
  simp [Prod.Lex.toLex_le_toLex]

theorem compares (ctx : UnitCtx) :
    List.Compares (tableBorderIsMoreEyecatching ctx) (key ctx) := by
  have decides (a b : Candidate) : (tableBorderIsMoreEyecatching ctx a b = true →
      key ctx a ≤ key ctx b) ∧ (tableBorderIsMoreEyecatching ctx a b = false →
      key ctx b ≤ key ctx a) := by
    rw [tableBorderIsMoreEyecatching]
    split
    next stays =>
        refine ⟨fun beaten => absurd beaten Bool.false_ne_true, fun _ => ?_⟩
        rcases stays with hidden | absent
        · exact key_le_of_hidden hidden b
        · exact key_le_of_none absent a
    next aVisible =>
        split
        next goes =>
            refine ⟨fun _ => ?_, fun stays => absurd stays.symm Bool.false_ne_true⟩
            rcases goes with hidden | absent
            · exact key_le_of_hidden hidden a
            · exact key_le_of_none absent b
        next bVisible =>
            rw [not_or] at aVisible bVisible
            rw [key_of_ordinary aVisible.1 bVisible.2, key_of_ordinary bVisible.1 aVisible.2,
              ordinary_le_iff, ordinary_le_iff, deviceWidth, deviceWidth]
            dsimp only
            split_ifs <;> simp <;> omega
  exact ⟨fun a b => (decides a b).1, fun a b => (decides a b).2⟩

/-- An earlier place in the order is a greater impact. -/
theorem styleOrder_iff (x y : BorderStyle) :
    styleOrder.idxOf x < styleOrder.idxOf y ↔ styleImpact y < styleImpact x := by
  cases x <;> cases y <;> decide

theorem sourceOrder_iff (x y : BoxType) :
    sourceOrder.idxOf x < sourceOrder.idxOf y ↔ sourceImpact y < sourceImpact x := by
  cases x <;> cases y <;> decide

/-- A border that beats another has the greater key. -/
theorem key_lt_of_beats (beats : Beats ctx x y) : key ctx y < key ctx x := by
  obtain ⟨yVisible, xPresent, rules⟩ := beats
  by_cases hidden : x.1.style = .hidden
  · refine lt_of_le_of_ne (key_le_of_hidden hidden y) ?_
    rw [key, key, if_neg yVisible, if_pos hidden]
    split <;> simp
  · by_cases absent : y.1.style = .none
    · refine lt_of_le_of_ne (key_le_of_none absent x) ?_
      rw [key_of_ordinary hidden xPresent, key, if_neg yVisible, if_pos absent]
      simp
    · rw [or_iff_right hidden, or_iff_right absent, styleOrder_iff, sourceOrder_iff] at rules
      rw [key_of_ordinary hidden xPresent, key_of_ordinary yVisible absent, ← not_le,
        ordinary_le_iff]
      rcases rules with wider | ⟨wide, style | ⟨style, source⟩⟩
      · omega
      · omega
      · rw [style]
        omega

/-- Only the ordinary styles are told apart by their impacts. -/
theorem style_eq_of_impact {x y : BorderStyle} (xOrdinary : x ≠ .hidden ∧ x ≠ .none)
    (yOrdinary : y ≠ .hidden ∧ y ≠ .none) (same : styleImpact x = styleImpact y) : x = y := by
  revert xOrdinary yOrdinary same
  cases x <;> cases y <;> decide

/-- The key of a border fixes its style, and its width unless the style draws nothing. -/
theorem eq_of_key (same : key ctx x = key ctx y) :
    x.1.style = y.1.style ∧
      (x.1.style ≠ .hidden → x.1.style ≠ .none → deviceWidth ctx x = deviceWidth ctx y) := by
  rw [key, key] at same
  split at same
  next xHidden =>
      refine ⟨?_, fun visible => absurd xHidden visible⟩
      split at same
      next yHidden => rw [xHidden, yHidden]
      next => split at same <;> simp at same
  next xVisible =>
      split at same
      next xAbsent =>
          refine ⟨?_, fun _ present => absurd xAbsent present⟩
          split at same
          next => simp at same
          next =>
              split at same
              next yAbsent => rw [xAbsent, yAbsent]
              next => simp at same
      next xPresent =>
          split at same
          next => simp at same
          next yVisible =>
              split at same
              next => simp at same
              next yPresent =>
                  simp only [EmbeddingLike.apply_eq_iff_eq, Prod.mk.injEq, true_and] at same
                  exact ⟨style_eq_of_impact ⟨xVisible, xPresent⟩ ⟨yVisible, yPresent⟩ same.2.1,
                    fun _ _ => same.1⟩

/-- No border beats the one that is left, and its style does not depend on the order. Its width in
pixels of the device does not either, unless it is hidden or none. -/
theorem mostEyecatching_unbeaten (ctx : UnitCtx) (first : Candidate) (rest : List Candidate) :
    mostEyecatching ctx first rest ∈ first :: rest ∧
      (∀ x ∈ first :: rest, ¬ Beats ctx x (mostEyecatching ctx first rest)) ∧
      ∀ first' rest', (first :: rest).Perm (first' :: rest') →
        (mostEyecatching ctx first rest).1.style = (mostEyecatching ctx first' rest').1.style ∧
          ((mostEyecatching ctx first rest).1.style ≠ .hidden →
            (mostEyecatching ctx first rest).1.style ≠ .none →
              deviceWidth ctx (mostEyecatching ctx first rest) =
                deviceWidth ctx (mostEyecatching ctx first' rest')) := by
  refine ⟨List.champion_mem _ _ _, ?_, ?_⟩
  · intro x inside beats
    exact absurd (key_lt_of_beats beats) (not_lt_of_ge ((compares ctx).le_champion inside))
  · intro first' rest' perm
    exact eq_of_key ((compares ctx).champion_perm perm)

/-- This is a screen with 96 dots per inch. -/
def screen : UnitCtx where
  viewportWidth := 0
  viewportHeight := 0
  fontSizeDefault := 0
  fontSizeMinimum := 0
  deviceDpi := Css.F_96
  rootStyle := none
  measure := none

/-- The border of a cell that is hidden and so many pixels wide. -/
def hiddenBorder (pixels : Int) : Candidate :=
  ({ style := .hidden, color := .color, c := 0, width := Css.INTTOFIX pixels, unit := .px
     absolute := by decide }, .tableCell)

/-- The first of two hidden borders is left, whatever its width is. -/
theorem hidden_width_by_order :
    [hiddenBorder 1, hiddenBorder 2].Perm [hiddenBorder 2, hiddenBorder 1] ∧
      deviceWidth screen (mostEyecatching screen (hiddenBorder 1) [hiddenBorder 2]) ≠
        deviceWidth screen (mostEyecatching screen (hiddenBorder 2) [hiddenBorder 1]) :=
  ⟨.swap _ _ _, by decide⟩

end Neosurf.TableBorder
