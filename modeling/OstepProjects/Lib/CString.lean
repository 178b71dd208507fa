/-
  OstepProjects/Lib/CString.lean
  ==============================
  **NUL-terminated strings.**

  A `CString` is the contents of a string up to its terminator, so no byte of it is
  zero.  `strcmp` compares as the C library does, byte by byte as `unsigned char`
  with the terminator as a zero byte; it decides the lexicographic order
  (`strcmp_neg`, `strcmp_eq_zero`), which makes `CString` a linear order.
-/
import Mathlib.Data.List.Lex
import Mathlib.Data.UInt
import Mathlib.Order.Lattice
import OstepProjects.Lib.Bytes

namespace OstepProjects

structure CString where
  bytes : List UInt8
  noNul : 0 ∉ bytes
deriving DecidableEq

namespace CString

theorem ext_bytes {s t : CString} (h : s.bytes = t.bytes) : s = t := by
  cases s; cases t; simp_all

/-- The string that an array holds. -/
def toCString (array : List UInt8) : CString where
  bytes := Bytes.cstr array
  noNul h := by simpa using List.mem_takeWhile_imp h

theorem toCString_bytes {s : List UInt8} (h : 0 ∉ s) : (toCString s).bytes = s :=
  Bytes.cstr_eq_self h

/-- The comparison of the two byte sequences, each followed by its terminator. -/
def compareBytes : List UInt8 → List UInt8 → Int
  | [], [] => 0
  | [], b :: _ => 0 - b.toNat
  | a :: _, [] => a.toNat
  | a :: as, b :: bs => if a = b then compareBytes as bs else (a.toNat : Int) - b.toNat

def strcmp (s t : CString) : Int := compareBytes s.bytes t.bytes

/-- The bytes as numbers, compared lexicographically. -/
def codes (s : CString) : List Nat := s.bytes.map UInt8.toNat

theorem codes_injective : Function.Injective codes := fun _ _ h =>
  ext_bytes (List.map_injective_iff.mpr (fun _ _ => UInt8.toNat_inj.mp) h)

instance : LinearOrder CString where
  le s t := s.codes ≤ t.codes
  lt s t := s.codes < t.codes
  le_refl s := le_refl s.codes
  le_trans s t u := le_trans (α := List Nat)
  le_antisymm _ _ h h' := codes_injective (le_antisymm h h')
  lt_iff_le_not_ge s t := lt_iff_le_not_ge (a := s.codes)
  le_total s t := le_total s.codes t.codes
  toDecidableLE s t := inferInstanceAs (Decidable (s.codes ≤ t.codes))
  toDecidableEq := inferInstance

theorem toNat_pos {b : UInt8} (h : b ≠ 0) : 0 < b.toNat :=
  Nat.pos_of_ne_zero fun hz => h (UInt8.toNat_inj.mp hz)

theorem compareBytes_neg {as bs : List UInt8} (hb : 0 ∉ bs) :
    compareBytes as bs < 0 ↔ as.map UInt8.toNat < bs.map UInt8.toNat := by
  induction as generalizing bs with
  | nil =>
    cases bs with
    | nil => simp [compareBytes]
    | cons b bs =>
      have hpos := toNat_pos (b := b) fun h => hb (by simp [h])
      simp only [compareBytes, List.map_nil, List.map_cons, List.nil_lt_cons, iff_true]
      omega
  | cons a as ih =>
    cases bs with
    | nil => simp [compareBytes]
    | cons b bs =>
      rw [List.map_cons, List.map_cons, List.cons_lt_cons_iff, compareBytes]
      by_cases hab : a = b
      · have hbs : 0 ∉ bs := fun h => hb (by simp [h])
        rw [if_pos hab, ih hbs, hab]
        simp
      · rw [if_neg hab]
        have hne : a.toNat ≠ b.toNat := fun h => hab (UInt8.toNat_inj.mp h)
        constructor
        · intro h
          exact Or.inl (by omega)
        · rintro (h | ⟨h, _⟩)
          · omega
          · exact absurd h hne

theorem compareBytes_eq_zero {as bs : List UInt8} (ha : 0 ∉ as) (hb : 0 ∉ bs) :
    compareBytes as bs = 0 ↔ as = bs := by
  induction as generalizing bs with
  | nil =>
    cases bs with
    | nil => simp [compareBytes]
    | cons b bs =>
      have hpos := toNat_pos (b := b) fun h => hb (by simp [h])
      simp only [compareBytes, reduceCtorEq, iff_false]
      omega
  | cons a as ih =>
    cases bs with
    | nil =>
      have hpos := toNat_pos (b := a) fun h => ha (by simp [h])
      simp only [compareBytes, reduceCtorEq, iff_false]
      omega
    | cons b bs =>
      rw [compareBytes, List.cons.injEq]
      by_cases hab : a = b
      · have has : 0 ∉ as := fun h => ha (by simp [h])
        have hbs : 0 ∉ bs := fun h => hb (by simp [h])
        rw [if_pos hab, ih has hbs]
        simp [hab]
      · rw [if_neg hab]
        have hne : a.toNat ≠ b.toNat := fun h => hab (UInt8.toNat_inj.mp h)
        simp only [hab, false_and, iff_false]
        omega

/-- `strcmp` is negative exactly when the first string comes before the second. -/
theorem strcmp_neg (s t : CString) : strcmp s t < 0 ↔ s < t :=
  compareBytes_neg t.noNul

/-- `strcmp` is zero exactly for equal strings. -/
theorem strcmp_eq_zero (s t : CString) : strcmp s t = 0 ↔ s = t := by
  rw [strcmp, compareBytes_eq_zero s.noNul t.noNul]
  exact ⟨ext_bytes, fun h => by rw [h]⟩

end CString

end OstepProjects
