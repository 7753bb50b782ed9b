import Mathlib.Algebra.Group.Nat.Defs
import Mil.Machine.Value

/-!
The memory of bytes. An access of several bytes is the accesses of its parts, and it reads and writes
every byte for itself: a byte that is read is the one that was written last at its address, however the
accesses overlap and wherever addresses go round.
-/

namespace Mil.Memory

variable {m m' : Memory} {addr a b : Int64} {v v' : UInt64} {i j k n : Nat}

/-! ### Bytes of an access -/

theorem offset_add (addr : Int64) (j k : Nat) : offset addr (j + k) = offset (offset addr j) k := by
  rw [offset, offset, offset, Int64.ofNat_add, Int64.add_assoc]

section Shifts

variable (h : n ≤ 7)
include h

theorem toNat_ofNat_mul_eight : (UInt64.ofNat (8 * n)).toNat = 8 * n := by
  rw [UInt64.toNat_ofNat']
  omega

theorem toNat_shiftRight_bytes (v : UInt64) :
    (v >>> UInt64.ofNat (8 * n)).toNat = v.toNat / 2 ^ (8 * n) := by
  rw [UInt64.toNat_shiftRight, toNat_ofNat_mul_eight h, Nat.mod_eq_of_lt (a := 8 * n) (by omega),
    Nat.shiftRight_eq_div_pow]

theorem toNat_shiftLeft_bytes (v : UInt64) :
    (v <<< UInt64.ofNat (8 * n)).toNat = v.toNat * 2 ^ (8 * n) % 2 ^ 64 := by
  rw [UInt64.toNat_shiftLeft, toNat_ofNat_mul_eight h, Nat.mod_eq_of_lt (a := 8 * n) (by omega),
    Nat.shiftLeft_eq]

end Shifts

/-- What is read is no longer than the bytes that are read. -/
theorem toNat_load_lt (m : Memory) (addr : Int64) (h : n ≤ 8) : (m.load addr n).toNat < 2 ^ (8 * n) := by
  induction n with
  | zero => exact Nat.one_pos
  | succ n ih =>
      have hlow : (m.load addr n).toNat < 2 ^ (8 * (n + 1)) :=
        Nat.lt_of_lt_of_le (ih (by omega)) (Nat.pow_le_pow_right (by decide) (by omega))
      have hbyte : (m.byte (offset addr n)).toUInt64.toNat * 2 ^ (8 * n) < 2 ^ (8 * (n + 1)) := by
        rw [Nat.mul_succ, Nat.add_comm, Nat.pow_add]
        exact Nat.mul_lt_mul_of_pos_right (UInt8.toNat_lt _) (Nat.two_pow_pos _)
      rw [load, UInt64.toNat_or, toNat_shiftLeft_bytes (by omega)]
      exact Nat.or_lt_two_pow hlow (Nat.lt_of_le_of_lt (Nat.mod_le _ _) hbyte)

/-- An access that reads is made of one that reads the first bytes and one that reads the others. -/
theorem load_add (h : j + k ≤ 8) : m.load addr (j + k) =
    m.load addr j ||| m.load (offset addr j) k <<< UInt64.ofNat (8 * j) := by
  induction k with
  | zero => rw [load, UInt64.zero_shiftLeft, UInt64.or_zero, Nat.add_zero]
  | succ k ih =>
      have hlt {i : Nat} (hi : i ≤ 7) : UInt64.ofNat (8 * i) < 64 := by
        rw [UInt64.lt_iff_toNat_lt, toNat_ofNat_mul_eight hi]
        show 8 * i < 64
        omega
      have hsum : UInt64.ofNat (8 * (j + k)) = UInt64.ofNat (8 * k) + UInt64.ofNat (8 * j) := by
        rw [← UInt64.ofNat_add, ← Nat.mul_add, Nat.add_comm]
      have hbyte (b : UInt64) : b <<< UInt64.ofNat (8 * (j + k)) =
          b <<< UInt64.ofNat (8 * k) <<< UInt64.ofNat (8 * j) := by
        have hboth : UInt64.ofNat (8 * (j + k)) < 64 := hlt (by omega)
        rw [hsum] at hboth ⊢
        exact UInt64.shiftLeft_add (hlt (by omega)) (hlt (by omega)) hboth
      rw [← Nat.add_assoc, load, load, ih (by omega), UInt64.shiftLeft_or, UInt64.or_assoc, offset_add,
        hbyte]

/-- What is read is the number of the first bytes and that of the others. -/
theorem toNat_load_add (h : j + k ≤ 8) : (m.load addr (j + k)).toNat =
    (m.load addr j).toNat + 2 ^ (8 * j) * (m.load (offset addr j) k).toNat := by
  rcases Nat.eq_zero_or_pos k with rfl | hk
  · rw [load, UInt64.toNat_zero, Nat.mul_zero, Nat.add_zero, Nat.add_zero]
  have hlow := toNat_load_lt m addr (n := j) (by omega)
  have hhigh : (m.load (offset addr j) k).toNat * 2 ^ (8 * j) < 2 ^ 64 := by
    calc (m.load (offset addr j) k).toNat * 2 ^ (8 * j)
        < 2 ^ (8 * k) * 2 ^ (8 * j) :=
          Nat.mul_lt_mul_of_pos_right (toNat_load_lt m _ (by omega)) (Nat.two_pow_pos _)
      _ = 2 ^ (8 * k + 8 * j) := (Nat.pow_add 2 _ _).symm
      _ ≤ 2 ^ 64 := Nat.pow_le_pow_right (by decide) (by omega)
  rw [load_add h, UInt64.toNat_or, toNat_shiftLeft_bytes (by omega), Nat.mod_eq_of_lt hhigh,
    Nat.or_comm, ← Nat.shiftLeft_eq, ← Nat.shiftLeft_add_eq_or_of_lt hlow, Nat.shiftLeft_eq,
    Nat.add_comm, Nat.mul_comm]

/-- An access that writes is made of one that writes the first bytes and one that writes the others. -/
theorem store_add (h : j + k ≤ 8) : m.store addr v (j + k) =
    (m.store addr v j).store (offset addr j) (v >>> UInt64.ofNat (8 * j)) k := by
  induction k with
  | zero => rfl
  | succ k ih =>
      have hbyte : (v >>> UInt64.ofNat (8 * (j + k))).toUInt8 =
          (v >>> UInt64.ofNat (8 * j) >>> UInt64.ofNat (8 * k)).toUInt8 := by
        rw [← UInt8.toNat_inj, UInt64.toNat_toUInt8, UInt64.toNat_toUInt8,
          toNat_shiftRight_bytes (by omega), toNat_shiftRight_bytes (by omega),
          toNat_shiftRight_bytes (by omega), Nat.div_div_eq_div_mul, ← Nat.pow_add, Nat.mul_add]
      rw [← Nat.add_assoc, store, store, ih (by omega), offset_add, hbyte]

/-- Only the bytes that are written matter. -/
theorem store_congr (h : n ≤ 8) (hv : v.toNat % 2 ^ (8 * n) = v'.toNat % 2 ^ (8 * n)) :
    m.store addr v n = m.store addr v' n := by
  induction n with
  | zero => rfl
  | succ n ih =>
      rw [Nat.mul_succ, Nat.pow_add] at hv
      have hlow : v.toNat % 2 ^ (8 * n) = v'.toNat % 2 ^ (8 * n) := by
        rw [← Nat.mod_mul_right_mod v.toNat _ (2 ^ 8), hv, Nat.mod_mul_right_mod]
      have hhigh : v.toNat / 2 ^ (8 * n) % 2 ^ 8 = v'.toNat / 2 ^ (8 * n) % 2 ^ 8 := by
        rw [← Nat.mod_mul_right_div_self, hv, Nat.mod_mul_right_div_self]
      have hbyte : (v >>> UInt64.ofNat (8 * n)).toUInt8 = (v' >>> UInt64.ofNat (8 * n)).toUInt8 := by
        rw [← UInt8.toNat_inj, UInt64.toNat_toUInt8, UInt64.toNat_toUInt8,
          toNat_shiftRight_bytes (by omega), toNat_shiftRight_bytes (by omega)]
        exact hhigh
      rw [store, store, ih (by omega) hlow, hbyte]

/-! ### Single bytes -/

/-- A byte of a number, the least significant first. -/
def byteOf (v : UInt64) (i : Nat) : UInt8 := (v >>> UInt64.ofNat (8 * i)).toUInt8

theorem toNat_byteOf (h : i ≤ 7) (v : UInt64) :
    (byteOf v i).toNat = v.toNat / 2 ^ (8 * i) % 2 ^ 8 := by
  rw [byteOf, UInt64.toNat_toUInt8, toNat_shiftRight_bytes h]

/-- The bytes of one access have different addresses, also where addresses go round. -/
theorem offset_injective (hi : i < 2 ^ 64) (hj : j < 2 ^ 64) (h : offset a i = offset a j) :
    i = j := by
  have hof : Int64.ofNat i = Int64.ofNat j := (Int64.add_right_inj a).mp h
  have hbits := congrArg (fun w : Int64 => w.toBitVec.toNat) hof
  rwa [Int64.toBitVec_ofNat', Int64.toBitVec_ofNat', BitVec.toNat_ofNat, BitVec.toNat_ofNat,
    Nat.mod_eq_of_lt hi, Nat.mod_eq_of_lt hj] at hbits

theorem load_one (m : Memory) (addr : Int64) : (m.load addr 1).toNat = (m.byte (offset addr 0)).toNat := by
  have hload : m.load addr 1 = (0 : UInt64) ||| (m.byte (offset addr 0)).toUInt64 <<< (0 : UInt64) := rfl
  rw [hload, UInt64.shiftLeft_zero, UInt64.zero_or, UInt8.toNat_toUInt64]

theorem offset_zero (addr : Int64) : offset addr 0 = addr := Int64.add_zero addr

/-- Every byte that is read is the byte at its address. -/
theorem byteOf_load (hj : j < k) (hk : k ≤ 8) : byteOf (m.load b k) j = m.byte (offset b j) := by
  obtain ⟨rest, rfl⟩ : ∃ rest, k = j + (1 + rest) := ⟨k - j - 1, by omega⟩
  have hlow := toNat_load_lt m b (n := j) (by omega)
  have hbyte := UInt8.toNat_lt (m.byte (offset b j))
  rw [← UInt8.toNat_inj, toNat_byteOf (by omega), toNat_load_add hk, toNat_load_add (by omega),
    load_one, offset_zero, Nat.add_mul_div_left _ _ (Nat.two_pow_pos _), Nat.div_eq_of_lt hlow,
    Nat.zero_add, Nat.add_mul_mod_self_left, Nat.mod_eq_of_lt hbyte]

theorem load_congr (h : ∀ j < k, m.byte (offset b j) = m'.byte (offset b j)) :
    m.load b k = m'.load b k := by
  induction k with
  | zero => rfl
  | succ k ih => rw [load, load, ih fun j hj => h j (by omega), h k (Nat.lt_succ_self k)]

/-! ### Reading what was written -/

theorem byte_store_succ (x : Int64) : (m.store a v (n + 1)).byte x =
    if x = offset a n then byteOf v n else (m.store a v n).byte x := by
  rw [store, byte, Std.HashMap.getElem?_insert]
  by_cases hx : x = offset a n
  · rw [if_pos hx, if_pos (beq_iff_eq.mpr hx.symm)]
    rfl
  · rw [if_neg hx, if_neg (fun h => hx (beq_iff_eq.mp h).symm)]
    rfl

/-- A byte outside the range of an access stays what it is. -/
theorem byte_store_of_ne {x : Int64} (h : ∀ i < n, x ≠ offset a i) :
    (m.store a v n).byte x = m.byte x := by
  induction n with
  | zero => rfl
  | succ n ih =>
      rw [byte_store_succ, if_neg (h n (Nat.lt_succ_self n))]
      exact ih fun i hi => h i (by omega)

/-- A byte in the range of an access is the byte that was written. -/
theorem byte_store (hi : i < n) (hn : n ≤ 8) : (m.store a v n).byte (offset a i) = byteOf v i := by
  induction n with
  | zero => exact absurd hi (Nat.not_lt_zero i)
  | succ n ih =>
      rw [byte_store_succ]
      split
      · rename_i heq
        rw [offset_injective (by omega) (by omega) heq]
      · rename_i hne
        exact ih (Nat.lt_of_le_of_ne (Nat.le_of_lt_succ hi) fun h => hne (h ▸ rfl)) (by omega)

/-- What was written is read again, cut to the bytes of the access. -/
theorem toNat_load_store (hk : k ≤ n) (hn : n ≤ 8) :
    ((m.store a v n).load a k).toNat = v.toNat % 2 ^ (8 * k) := by
  induction k with
  | zero => exact (Nat.mod_one _).symm
  | succ k ih =>
      rw [toNat_load_add (by omega), ih (by omega), load_one, offset_zero, byte_store (by omega) hn,
        toNat_byteOf (by omega), Nat.mul_succ, Nat.pow_add, Nat.mod_mul]

/-- Reading after writing. For all addresses and all sizes of up to eight bytes: a byte that is read is
the byte that was written at its address, or what was there before if nothing was written there, and no
other bytes are read. So what was written at an address is read there again, as far as it fits; a range
that was not written to is read as before; and to read a range is to read its two parts. -/
theorem load_store (m : Memory) (a b : Int64) (v : UInt64) (hn : n ≤ 8) (hk : k ≤ 8) :
    (∀ j < k,
      (∀ i < n, offset b j = offset a i → byteOf ((m.store a v n).load b k) j = byteOf v i) ∧
      ((∀ i < n, offset b j ≠ offset a i) →
        byteOf ((m.store a v n).load b k) j = byteOf (m.load b k) j)) ∧
    ((m.store a v n).load b k).toNat < 2 ^ (8 * k) ∧
    ((m.store a v n).load a n).toNat = v.toNat % 2 ^ (8 * n) ∧
    ((∀ j < k, ∀ i < n, offset b j ≠ offset a i) → (m.store a v n).load b k = m.load b k) ∧
    ∀ i j, i + j ≤ 8 → (m.load a (i + j)).toNat =
      (m.load a i).toNat + 2 ^ (8 * i) * (m.load (offset a i) j).toNat := by
  refine ⟨fun j hj => ⟨fun i hi heq => ?_, fun hne => ?_⟩, toNat_load_lt _ b hk,
    toNat_load_store (Nat.le_refl n) hn, fun hne => ?_, fun i j hij => toNat_load_add hij⟩
  · rw [byteOf_load hj hk, heq, byte_store hi hn]
  · rw [byteOf_load hj hk, byteOf_load hj hk, byte_store_of_ne hne]
  · exact load_congr fun j hj => byte_store_of_ne (hne j hj)

/-- Four bytes written over the end of the addresses and eight bytes read from two bytes before: the
first two are still zero, the third is the lowest one that was written, and the last two are zero. -/
theorem load_store_around :
    byteOf ((empty.store 9223372036854775806 0x11223344 4).load 9223372036854775804 8) 2 =
        byteOf 0x11223344 0 ∧
      byteOf ((empty.store 9223372036854775806 0x11223344 4).load 9223372036854775804 8) 4 = 0x22 ∧
      byteOf ((empty.store 9223372036854775806 0x11223344 4).load 9223372036854775804 8) 7 =
        byteOf (empty.load 9223372036854775804 8) 7 ∧
      (empty.store 9223372036854775806 0x11223344 4).load (-9223372036854775806) 3 =
        empty.load (-9223372036854775806) 3 := by
  obtain ⟨hbyte, -⟩ := load_store empty 9223372036854775806 9223372036854775804 0x11223344
    (n := 4) (k := 8) (by decide) (by decide)
  obtain ⟨-, -, -, hrest, -⟩ := load_store empty 9223372036854775806 (-9223372036854775806) 0x11223344
    (n := 4) (k := 3) (by decide) (by decide)
  exact ⟨(hbyte 2 (by decide)).1 0 (by decide) (by decide),
    ((hbyte 4 (by decide)).1 2 (by decide) (by decide)).trans (by decide),
    (hbyte 7 (by decide)).2 (by decide), hrest (by decide)⟩

end Mil.Memory
