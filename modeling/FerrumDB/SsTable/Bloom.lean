import FerrumDB.SsTable

/-!
# The bloom filter has no false negatives

Adding a key sets all of its bits, and no later addition clears a bit. The positions of a key
depend only on the length of the bit array, which additions keep.
-/

namespace FerrumDB

variable {f : BloomFilter}

/-- The filter has bits, and their number is within the 64-bit modulus of `position`. -/
structure BloomFilter.Sized (f : BloomFilter) : Prop where
  ne_nil : f.bits ≠ []
  lt : f.bits.length < 2 ^ 61

/-- Same positions for every key. -/
def BloomFilter.Like (f g : BloomFilter) : Prop := f.bits.length = g.bits.length ∧ f.k = g.k

theorem BloomFilter.setBit_like (f : BloomFilter) (bit : ℕ) : (f.setBit bit).Like f := by
  simp [Like, setBit]

theorem BloomFilter.Like.positions {g : BloomFilter} (h : f.Like g) (key : Bytes) :
    f.positions key = g.positions key := by
  unfold BloomFilter.positions
  rw [h.2]
  refine List.map_congr_left fun i _ => ?_
  unfold BloomFilter.position
  rw [h.1]

theorem BloomFilter.foldl_setBit_like (bits : List ℕ) (f : BloomFilter) :
    (bits.foldl setBit f).Like f := by
  induction bits generalizing f with
  | nil => exact ⟨rfl, rfl⟩
  | cons b bits ih =>
    have h := ih (f.setBit b)
    have h' := f.setBit_like b
    exact ⟨h.1.trans h'.1, h.2.trans h'.2⟩

theorem BloomFilter.foldl_add_like (keys : List Bytes) (f : BloomFilter) :
    (keys.foldl add f).Like f := by
  induction keys generalizing f with
  | nil => exact ⟨rfl, rfl⟩
  | cons key keys ih =>
    have h := ih (f.add key)
    have h' := foldl_setBit_like (f.positions key) f
    exact ⟨h.1.trans h'.1, h.2.trans h'.2⟩

theorem BloomFilter.position_lt (hs : f.Sized) (key : Bytes) (i : ℕ) :
    f.position key i < f.bits.length * 8 := by
  have hpos := List.length_pos_iff.2 hs.ne_nil
  have hlt := hs.lt
  unfold position
  dsimp only
  rw [UInt64.toNat_mod, UInt64.toNat_ofNat']
  have hm : f.bits.length * 8 % 2 ^ 64 = f.bits.length * 8 := Nat.mod_eq_of_lt (by omega)
  rw [hm]
  exact Nat.mod_lt _ (by omega)

/-! ## Bits -/

theorem mask_ne_zero (bit : ℕ) : (1 : UInt8) <<< UInt8.ofNat (bit % 8) ≠ 0 := by
  have h : ∀ i : Fin 8, (1 : UInt8) <<< UInt8.ofNat i ≠ 0 := by decide
  exact h ⟨bit % 8, Nat.mod_lt _ (by decide)⟩

theorem or_and_ne_zero {x y z : UInt8} (h : x &&& z ≠ 0) : (x ||| y) &&& z ≠ 0 := by
  have hdistrib : (x ||| y) &&& z = x &&& z ||| y &&& z := by
    apply UInt8.toBitVec_inj.1
    simp only [UInt8.toBitVec_and, UInt8.toBitVec_or]
    exact BitVec.and_or_distrib_right
  rw [hdistrib, Ne, UInt8.or_eq_zero_iff]
  exact fun h' => h h'.1

/-- Setting a bit keeps every bit that is set. -/
theorem BloomFilter.testBit_setBit_of_testBit {bit bit' : ℕ} (h : f.testBit bit' = true) :
    (f.setBit bit).testBit bit' = true := by
  simp only [testBit, setBit, bne_iff_ne, List.getD_eq_getElem?_getD, List.getElem?_modify] at *
  cases hb : f.bits[bit' / 8]? with
  | none => rw [hb] at h; simp at h
  | some x =>
    rw [hb] at h
    by_cases heq : bit / 8 = bit' / 8
    · simp only [heq, if_true, Option.map_eq_map, Option.map_some, Option.getD_some] at *
      exact or_and_ne_zero h
    · simp only [heq, if_false, Option.getD_some] at *
      exact h

theorem BloomFilter.testBit_setBit_self {bit : ℕ} (h : bit < f.bits.length * 8) :
    (f.setBit bit).testBit bit = true := by
  have hlt : bit / 8 < f.bits.length := by omega
  simp only [testBit, setBit, bne_iff_ne, List.getD_eq_getElem?_getD, List.getElem?_modify, if_true,
    List.getElem?_eq_getElem hlt, Option.map_eq_map, Option.map_some, Option.getD_some]
  rw [UInt8.or_comm]
  exact or_and_ne_zero (by rw [UInt8.and_self]; exact mask_ne_zero bit)

theorem BloomFilter.testBit_foldl_setBit (bits : List ℕ) {bit : ℕ} (h : f.testBit bit = true) :
    (bits.foldl setBit f).testBit bit = true := by
  induction bits generalizing f with
  | nil => exact h
  | cons b bits ih => exact ih (testBit_setBit_of_testBit h)

theorem BloomFilter.testBit_foldl_setBit_mem {bits : List ℕ} {bit : ℕ}
    (hlt : ∀ b ∈ bits, b < f.bits.length * 8) (h : bit ∈ bits) :
    (bits.foldl setBit f).testBit bit = true := by
  induction bits generalizing f with
  | nil => cases h
  | cons b bits ih =>
    rcases List.mem_cons.1 h with rfl | h
    · exact testBit_foldl_setBit bits (testBit_setBit_self (hlt bit (List.mem_cons_self ..)))
    · refine ih (fun b' hb' => ?_) h
      rw [(f.setBit_like b).1]
      exact hlt b' (List.mem_cons_of_mem _ hb')

theorem BloomFilter.testBit_foldl_add (keys : List Bytes) {bit : ℕ} (h : f.testBit bit = true) :
    (keys.foldl add f).testBit bit = true := by
  induction keys generalizing f with
  | nil => exact h
  | cons key keys ih => exact ih (testBit_foldl_setBit _ h)

/-- All bits of an added key are set. -/
theorem BloomFilter.testBit_foldl_add_mem (hs : f.Sized) {keys : List Bytes} {key : Bytes} {bit : ℕ}
    (h : key ∈ keys) (hbit : bit ∈ f.positions key) : (keys.foldl add f).testBit bit = true := by
  induction keys generalizing f with
  | nil => cases h
  | cons key' keys ih =>
    rcases List.mem_cons.1 h with rfl | h
    · refine testBit_foldl_add keys (testBit_foldl_setBit_mem (fun b hb => ?_) hbit)
      obtain ⟨i, -, rfl⟩ := List.mem_map.1 hb
      exact position_lt hs key i
    · have hlike : (f.add key').Like f := foldl_setBit_like _ f
      refine ih ⟨?_, ?_⟩ h (by rwa [hlike.positions])
      · rw [← List.length_pos_iff, hlike.1, List.length_pos_iff]; exact hs.ne_nil
      · rw [hlike.1]; exact hs.lt

/-- **No false negatives.** The filter over `keys` lets every one of them through. -/
theorem BloomFilter.maybeContains_foldl_add (hs : f.Sized) {keys : List Bytes} {key : Bytes}
    (h : key ∈ keys) : (keys.foldl add f).maybeContains key = .ok true := by
  have hlike := foldl_add_like keys f
  have hne : (keys.foldl add f).bits ≠ [] := by
    rw [← List.length_pos_iff, hlike.1, List.length_pos_iff]; exact hs.ne_nil
  have hall : ((keys.foldl add f).positions key).all (keys.foldl add f).testBit = true := by
    rw [hlike.positions, List.all_eq_true]
    exact fun bit hbit => testBit_foldl_add_mem hs h hbit
  unfold maybeContains
  rw [if_neg (fun hnil => hne hnil.1), hall]

/-- A filter with bits answers every query. -/
theorem BloomFilter.maybeContains_isOk (h : f.bits ≠ []) (key : Bytes) :
    ∃ b, f.maybeContains key = .ok b := by
  unfold maybeContains
  rw [if_neg (fun hnil => h hnil.1)]
  exact ⟨_, rfl⟩

theorem BloomFilter.new_bits_ne_nil (n : ℕ) : (new n).bits ≠ [] := by
  rw [← List.length_pos_iff]
  unfold new
  rw [List.length_replicate]
  omega

end FerrumDB
