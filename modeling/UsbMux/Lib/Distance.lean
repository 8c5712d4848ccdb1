/-
Words that differ in a few bits. A word of `n` bits apart from another is
reached from it by `n` flips of different bits (`Words.exists_flips`), so a
check value that each flip changes in its own way tells the two apart
(`Words.detects`).
-/
import Mathlib.InformationTheory.Hamming
import UsbMux.Lib.Block

namespace UsbMux

/-- Words read bit by bit, and the word with one bit changed. -/
structure Words (X ι : Type) [DecidableEq ι] where
  bits : X → ι → Bool
  flip : X → ι → X
  bits_injective : Function.Injective bits
  bits_flip : ∀ x i, bits (flip x i) = Function.update (bits x) i (!bits x i)

namespace Words

variable {X ι G : Type} [DecidableEq ι] (W : Words X ι)
variable {value : X → G} {act : G → ι → G}

theorem value_foldl (hv : ∀ x i, value (W.flip x i) = act (value x) i) (l : List ι) (x : X) :
    value (l.foldl W.flip x) = l.foldl act (value x) := by
  induction l generalizing x with
  | nil => rfl
  | cons i l ih => rw [List.foldl_cons, List.foldl_cons, ih, hv]

variable [Fintype ι]

/-- Flipping a bit in which two words differ brings them one bit closer. -/
theorem hammingDist_flip {x y : X} {i : ι} (h : W.bits x i ≠ W.bits y i) :
    hammingDist (W.bits (W.flip x i)) (W.bits y) + 1 = hammingDist (W.bits x) (W.bits y) := by
  have hi : i ∈ Finset.univ.filter fun j => W.bits x j ≠ W.bits y j := by simpa using h
  rw [hammingDist, hammingDist, ← Finset.card_erase_add_one hi, W.bits_flip]
  congr 2
  ext j
  by_cases hj : j = i
  · subst hj
    have : (!W.bits x j) = W.bits y j := by
      cases hx : W.bits x j <;> simp_all
    simp [this]
  · simp [hj]

/-- Words `n` bits apart are `n` flips of different bits apart. -/
theorem exists_flips {n : Nat} {x y : X} (h : hammingDist (W.bits x) (W.bits y) = n) :
    ∃ l : List ι, l.Nodup ∧ l.length = n ∧ (∀ i ∈ l, W.bits x i ≠ W.bits y i) ∧ y = l.foldl W.flip x := by
  induction n generalizing x with
  | zero => exact ⟨[], List.nodup_nil, rfl, by simp, (W.bits_injective (eq_of_hammingDist_eq_zero h)).symm⟩
  | succ n ih =>
    obtain ⟨i, hi⟩ : ∃ i, W.bits x i ≠ W.bits y i := by
      by_contra hno
      have hxy : W.bits x = W.bits y := funext fun i => by simpa using not_exists.mp hno i
      rw [hxy, hammingDist_self] at h
      cases h
    obtain ⟨l, hnd, hlen, hdiff, rfl⟩ := ih (Nat.succ.inj ((W.hammingDist_flip hi).trans h))
    -- the bit flipped first now agrees, so it is not flipped again
    have hnot : i ∉ l := by
      intro hmem
      have := hdiff i hmem
      rw [W.bits_flip, Function.update_self] at this
      cases hb : W.bits x i <;> simp_all
    refine ⟨i :: l, List.nodup_cons.mpr ⟨hnot, hnd⟩, congrArg _ hlen, ?_, rfl⟩
    intro j hj
    rcases List.mem_cons.mp hj with rfl | hmem
    · exact hi
    · have hne : j ≠ i := fun he => hnot (he ▸ hmem)
      simpa [W.bits_flip, hne] using hdiff j hmem

/-- **Detection.** Where each flip changes the parity of the check value and no
two different flips cancel, words one, two or three bits apart have different
check values. -/
theorem detects (value : X → G) (act : G → ι → G) (parity : G → Bool)
    (hv : ∀ x i, value (W.flip x i) = act (value x) i) (hodd : ∀ g i, parity (act g i) = !parity g)
    (htwo : ∀ g i j, i ≠ j → act (act g i) j ≠ g) {x y : X}
    (h1 : 1 ≤ hammingDist (W.bits x) (W.bits y)) (h3 : hammingDist (W.bits x) (W.bits y) ≤ 3) :
    value x ≠ value y := by
  obtain ⟨l, hnd, hlen, -, rfl⟩ := W.exists_flips (x := x) (y := y) rfl
  rw [W.value_foldl hv]
  have hpar {g : G} (h : parity g = !parity (value x)) : value x ≠ g := by
    rintro rfl
    simp at h
  rw [← hlen] at h1 h3
  match l, hnd, h1, h3 with
  | [i], _, _, _ => exact hpar (hodd _ _)
  | [i, j], hnd, _, _ => exact (htwo _ i j (by simpa using hnd)).symm
  | [i, j, k], _, _, _ =>
    refine hpar ?_
    simp only [List.foldl_cons, List.foldl_nil, hodd, Bool.not_not]

end Words

/-! ## Arrays of bytes -/

namespace Block

variable {n : Nat}

/-- Bit `p.2` of cell `p.1`. -/
def bits (b : Block UInt8 n) (p : Fin n × Fin 8) : Bool := (b.get p.1).toNat.testBit p.2

def flip (b : Block UInt8 n) (p : Fin n × Fin 8) : Block UInt8 n :=
  b.put p.1 (b.get p.1 ^^^ UInt8.ofNat (2 ^ p.2.val))

theorem bits_injective : Function.Injective (bits (n := n)) := by
  intro a b h
  refine List.Vector.ext fun k => ?_
  rw [← UInt8.toNat_inj]
  refine Nat.eq_of_testBit_eq fun j => ?_
  by_cases hj : j < 8
  · exact congrFun h (k, ⟨j, hj⟩)
  · have hbig (v : UInt8) : v.toNat.testBit j = false :=
      Nat.testBit_lt_two_pow (v.toNat_lt.trans_le (Nat.pow_le_pow_right (by decide) (by omega)))
    rw [hbig, hbig]

theorem testBit_xor_two_pow (v : UInt8) (j i : Fin 8) :
    (v ^^^ UInt8.ofNat (2 ^ j.val)).toNat.testBit i = (v.toNat.testBit i ^^ decide (j = i)) := by
  have hlt : 2 ^ j.val < 2 ^ 8 := Nat.pow_lt_pow_right (by decide) j.isLt
  rw [UInt8.toNat_xor, Nat.testBit_xor, UInt8.toNat_ofNat', Nat.mod_eq_of_lt hlt, Nat.testBit_two_pow]
  simp [Fin.ext_iff]

theorem get_put (b : Block UInt8 n) (k i : Fin n) (v : UInt8) :
    (b.put k v).get i = if k = i then v else b.get i := by
  rw [List.Vector.get_eq_get_toList, List.Vector.get_eq_get_toList]
  simp only [toList_put, List.get_eq_getElem, List.getElem_set, Fin.ext_iff]
  rfl

theorem bits_flip (b : Block UInt8 n) (p : Fin n × Fin 8) :
    bits (b.flip p) = Function.update (bits b) p (!bits b p) := by
  obtain ⟨k, j⟩ := p
  funext q
  obtain ⟨k', j'⟩ := q
  simp only [bits, flip, get_put]
  by_cases hk : k = k'
  · subst hk
    rw [if_pos rfl, testBit_xor_two_pow]
    by_cases hj : j = j'
    · subst hj
      simp
    · have hne : ((k, j') : Fin n × Fin 8) ≠ (k, j) := fun h => hj (congrArg Prod.snd h).symm
      simp [hj, Function.update_of_ne hne, bits]
  · have hne : ((k', j') : Fin n × Fin 8) ≠ (k, j) := fun h => hk (congrArg Prod.fst h).symm
    rw [if_neg hk, Function.update_of_ne hne, bits]

/-- An array of bytes is a word. -/
def words (n : Nat) : Words (Block UInt8 n) (Fin n × Fin 8) where
  bits := bits
  flip := flip
  bits_injective := bits_injective
  bits_flip := bits_flip

end Block

end UsbMux
