import Mathlib.Data.Prod.Lex
import Mathlib.Data.List.Lex
import Ddcp.Db.Basic

set_option autoImplicit false

/-! # One order on cells

The results hold for every linear order on `CellData`. `cellDataOrder` is one of them, by causal
length, then column version, then value, with the values ordered by type first; runs on concrete
databases use it. -/

namespace Ddcp

/-- Values by type (null, integer, real, text, blob), then by content. -/
def Value.rank : Value → ℕ ×ₗ ℤ ×ₗ List ℕ
  | .null => toLex (0, toLex (0, []))
  | .integer i => toLex (1, toLex (i.toInt, []))
  | .real bits => toLex (2, toLex (bits.toNat, []))
  | .text s => toLex (3, toLex (0, s.toList.map Char.toNat))
  | .blob b => toLex (4, toLex (0, b.map UInt8.toNat))

theorem Value.rank_injective : Function.Injective Value.rank := by
  intro v w h
  -- values of different types have different first components
  cases v <;> cases w <;> simp [Value.rank] at h
  · rfl
  · rw [Int64.toInt_inj.1 h]
  · rename_i bits bits'
    have hbits : bits.toNat = bits'.toNat := by omega
    rw [UInt64.toNat_inj.1 hbits]
  · rw [String.toList_injective (List.map_injective_iff.2 (fun a b hab => Char.toNat_inj.1 hab) h)]
  · rw [List.map_injective_iff.2 (fun a b hab => UInt8.toNat_inj.1 hab) h]

/-- Causal length, column version, value. -/
def CellData.rank (d : CellData) : ℤ ×ₗ ℤ ×ₗ ℕ ×ₗ ℤ ×ₗ List ℕ :=
  toLex (d.cl.toInt, toLex (d.colVersion.toInt, d.val.value.rank))

theorem CellData.rank_injective : Function.Injective CellData.rank := by
  rintro ⟨cl, cv, ⟨v, hv⟩⟩ ⟨cl', cv', ⟨v', hv'⟩⟩ h
  simp only [CellData.rank, EmbeddingLike.apply_eq_iff_eq, Prod.mk.injEq] at h
  obtain ⟨h1, h2, h3⟩ := h
  obtain rfl := Value.rank_injective h3
  rw [Int64.toInt_inj.1 h1, Int64.toInt_inj.1 h2]

abbrev cellDataOrder : LinearOrder CellData := LinearOrder.lift' CellData.rank CellData.rank_injective

end Ddcp
