import FerrumDB.SsTable.Records
import FerrumDB.SsTable.Bloom

/-!
# Locating a key

The first keys of the blocks are ascending, so a binary search over the index finds the only block
that can hold a key: `locate_spec`. The key range and the filter rule out no key of the table
(`outOfRange_lookup`, `passesBloom_lookup`).
-/

namespace FerrumDB

open BinarySearch

variable {p : Prost} {gs pre post : List (List Record)} {g : List Record} {key : Bytes}

/-- The index entry of the block `g` after the blocks `pre`. -/
def blockEntry (p : Prost) (pre : List (List Record)) (g : List Record) : IndexEntry :=
  ⟨firstKey g, asU64 (dataRegion p pre).length, asU32 ((blockBytes p g).length + 4)⟩

/-! ## The index -/

theorem length_indexFrom (offset : ℕ) (gs : List (List Record)) :
    (indexFrom p offset gs).length = gs.length := by
  induction gs generalizing offset with
  | nil => rfl
  | cons g gs ih => simp [indexFrom, ih]

theorem indexFrom_split (pre post : List (List Record)) (g : List Record) :
    indexFrom p 0 (pre ++ g :: post) = indexFrom p 0 pre ++ blockEntry p pre g ::
      indexFrom p ((dataRegion p pre).length + (sealedBlock p g).length) post := by
  rw [indexFrom_append, indexFrom, Nat.zero_add]
  rfl

theorem getElem?_indexFrom_split (pre post : List (List Record)) (g : List Record) :
    (indexFrom p 0 (pre ++ g :: post))[pre.length]? = some (blockEntry p pre g) := by
  rw [indexFrom_split, ← length_indexFrom (p := p) 0 pre, List.getElem?_append_right le_rfl,
    Nat.sub_self, List.getElem?_cons_zero]

theorem firstKey_getElem_indexFrom {i : ℕ} (h : i < gs.length)
    (h' : i < (indexFrom p 0 gs).length) : (indexFrom p 0 gs)[i].firstKey = firstKey gs[i] := by
  have hsplit : gs = gs.take i ++ gs[i] :: gs.drop (i + 1) := by
    rw [List.getElem_cons_drop, List.take_append_drop]
  have hget := getElem?_indexFrom_split (p := p) (gs.take i) (gs.drop (i + 1)) gs[i]
  rw [← hsplit, List.length_take_of_le h.le, List.getElem?_eq_getElem h'] at hget
  rw [Option.some.inj hget]
  rfl

theorem mem_indexFrom {e : IndexEntry} (h : e ∈ indexFrom p 0 gs) :
    ∃ pre g post, gs = pre ++ g :: post ∧ e = blockEntry p pre g := by
  obtain ⟨i, hi, rfl⟩ := List.getElem_of_mem h
  have hlen : i < gs.length := by rwa [length_indexFrom] at hi
  have hsplit : gs = gs.take i ++ gs[i] :: gs.drop (i + 1) := by
    rw [List.getElem_cons_drop, List.take_append_drop]
  refine ⟨gs.take i, gs[i], gs.drop (i + 1), hsplit, ?_⟩
  have hget := getElem?_indexFrom_split (p := p) (gs.take i) (gs.drop (i + 1)) gs[i]
  rw [← hsplit, List.length_take_of_le hlen.le, List.getElem?_eq_getElem hi] at hget
  exact Option.some.inj hget

/-! ## Keys of blocks -/

theorem mem_flatten_firstKey (hg : g ≠ []) : ∃ e ∈ g, firstKey g = e.1 := by
  cases g with
  | nil => exact absurd rfl hg
  | cons e g => exact ⟨e, List.mem_cons_self .., rfl⟩

theorem firstKey_le (hasc : Ascending g) {e : Record} (he : e ∈ g) : firstKey g ≤ e.1 := by
  cases g with
  | nil => cases he
  | cons e' g =>
    rcases List.mem_cons.1 he with rfl | he
    · exact Std.le_refl _
    · exact Std.le_of_lt ((List.pairwise_cons.1 hasc).1 e he)

/-- Ascending entries in non-empty blocks. -/
structure Blocks (gs : List (List Record)) : Prop where
  ascending : Ascending gs.flatten
  ne_nil : ∀ g ∈ gs, g ≠ []

theorem Blocks.ascending_of_mem (h : Blocks gs) (hg : g ∈ gs) : Ascending g :=
  (List.pairwise_flatten.1 h.ascending).1 g hg

theorem Blocks.pairwise (h : Blocks gs) :
    gs.Pairwise fun a b => ∀ x ∈ a, ∀ y ∈ b, x.1 < y.1 := (List.pairwise_flatten.1 h.ascending).2

theorem Blocks.firstKeys (h : Blocks gs) : gs.Pairwise fun a b => firstKey a < firstKey b := by
  refine h.pairwise.imp_of_mem fun {a b} ha hb hlt => ?_
  obtain ⟨x, hx, hxk⟩ := mem_flatten_firstKey (h.ne_nil a ha)
  obtain ⟨y, hy, hyk⟩ := mem_flatten_firstKey (h.ne_nil b hb)
  rw [hxk, hyk]; exact hlt x hx y hy

theorem Blocks.pairwise_indexFrom (h : Blocks gs) :
    (indexFrom p 0 gs).Pairwise fun a b => a.firstKey < b.firstKey := by
  rw [List.pairwise_iff_getElem]
  intro i j hi hj hij
  have hlen := length_indexFrom (p := p) 0 gs
  rw [firstKey_getElem_indexFrom (by omega) hi, firstKey_getElem_indexFrom (by omega) hj]
  exact List.pairwise_iff_getElem.1 h.firstKeys i j (by omega) (by omega) hij

theorem blocks_groups {entries : List Record} (h : Ascending entries) : Blocks (groups p entries) :=
  ⟨by rwa [flatten_groups], fun _ => ne_nil_of_mem_groups⟩

theorem lookup_eq_none_of_gt {l : List Record} (h : ∀ e ∈ l, e.1 < key) : l.lookup key = none := by
  rw [List.lookup_eq_none_iff]
  intro e he
  have := h e he
  simp only [bne_iff_ne, ne_eq]
  rintro rfl
  exact absurd this Std.lt_irrefl

/-- A key at or above the first key of `g` and below that of every later block is looked up in `g`. -/
theorem Blocks.lookup_split (h : Blocks (pre ++ g :: post)) (hle : firstKey g ≤ key)
    (hpost : ∀ b ∈ post, key < firstKey b) :
    (pre ++ g :: post).flatten.lookup key = g.lookup key := by
  obtain ⟨x, hx, hxk⟩ := mem_flatten_firstKey (h.ne_nil g (by simp))
  have hbefore : ∀ e ∈ pre.flatten, e.1 < key := by
    intro e he
    obtain ⟨b, hb, heb⟩ := List.mem_flatten.1 he
    have := (List.pairwise_append.1 h.pairwise).2.2 b hb g (List.mem_cons_self ..) e heb x hx
    exact Std.lt_of_lt_of_le this (hxk ▸ hle)
  have hafter : ∀ e ∈ post.flatten, key < e.1 := by
    intro e he
    obtain ⟨b, hb, heb⟩ := List.mem_flatten.1 he
    have hasc := h.ascending_of_mem (g := b) (by simp [hb])
    exact Std.lt_of_lt_of_le (hpost b hb) (firstKey_le hasc heb)
  rw [List.flatten_append, List.flatten_cons, List.lookup_append, List.lookup_append,
    lookup_eq_none_of_gt hbefore, lookup_eq_none_of_lt hafter]
  simp

theorem Blocks.lookup_none (h : Blocks gs) (hlt : ∀ b ∈ gs, key < firstKey b) :
    gs.flatten.lookup key = none := by
  apply lookup_eq_none_of_lt
  intro e he
  obtain ⟨b, hb, heb⟩ := List.mem_flatten.1 he
  exact Std.lt_of_lt_of_le (hlt b hb) (firstKey_le (h.ascending_of_mem hb) heb)

/-! ## The lookup steps -/

/-- **The binary search.** It finds the only block that can hold the key, or says that none can. -/
theorem locate_spec (key : Bytes) (h : Blocks gs) {t : SsTable} (ht : t.index = indexFrom p 0 gs) :
    (t.locate key = none ∧ gs.flatten.lookup key = none) ∨
      ∃ pre g post, gs = pre ++ g :: post ∧ t.locate key = some (blockEntry p pre g) ∧
        gs.flatten.lookup key = g.lookup key := by
  have hasc := h.pairwise_indexFrom (p := p)
  obtain ⟨q, hq⟩ := exists_split IndexEntry.firstKey key hasc
  have hlen := length_indexFrom (p := p) 0 gs
  -- the block at `i`, when the target is not below it and below all later blocks
  have hblock : ∀ (i : ℕ) (hi : i < gs.length), firstKey gs[i] ≤ key →
      (∀ (j : ℕ) (hj : j < gs.length), i < j → key < firstKey gs[j]) →
      ∃ pre g post, gs = pre ++ g :: post ∧ (indexFrom p 0 gs)[i]? = some (blockEntry p pre g) ∧
        gs.flatten.lookup key = g.lookup key := by
    intro i hi hle hlater
    have hsplit : gs = gs.take i ++ gs[i] :: gs.drop (i + 1) := by
      rw [List.getElem_cons_drop, List.take_append_drop]
    refine ⟨gs.take i, gs[i], gs.drop (i + 1), hsplit, ?_, ?_⟩
    · have hget := getElem?_indexFrom_split (p := p) (gs.take i) (gs.drop (i + 1)) gs[i]
      rwa [← hsplit, List.length_take_of_le hi.le] at hget
    · rw [congrArg (fun l => l.flatten.lookup key) hsplit]
      refine Blocks.lookup_split (hsplit ▸ h) hle fun b hb => ?_
      obtain ⟨j, hj, rfl⟩ := List.getElem_of_mem hb
      rw [List.getElem_drop]
      exact hlater _ (by rw [List.length_drop] at hj; omega) (by omega)
  have hcmp : ∀ (i : ℕ) (hi : i < gs.length), compare (indexFrom p 0 gs)[i].firstKey key =
      compare (firstKey gs[i]) key := fun i hi => by rw [firstKey_getElem_indexFrom hi]
  have hgt : ∀ (j : ℕ) (hj : j < gs.length), q < j → key < firstKey gs[j] := by
    intro j hj hqj
    have := hq.above j (by omega) hqj
    rw [hcmp j hj] at this
    exact Std.compare_eq_gt.1 this
  unfold SsTable.locate
  rw [ht]
  rcases search_spec hq with ⟨hp, heq, hs⟩ | ⟨hp, hs⟩
  · -- the key is the first key of a block
    rw [hs]
    have hqlen : q < gs.length := by omega
    rw [hcmp q hqlen] at heq
    have hkey : firstKey gs[q] = key := Std.compare_eq_iff_eq.1 heq
    exact Or.inr (hblock q hqlen (by rw [hkey]; exact Std.le_refl _) hgt)
  · rw [hs]
    have hge : ∀ (j : ℕ) (hj : j < gs.length), q ≤ j → key < firstKey gs[j] := by
      intro j hj hqj
      rcases Nat.eq_or_lt_of_le hqj with rfl | hlt
      · have := hp (by omega)
        rw [hcmp q hj] at this
        exact Std.compare_eq_gt.1 this
      · exact hgt j hj hlt
    cases q with
    | zero =>
      refine Or.inl ⟨rfl, h.lookup_none fun b hb => ?_⟩
      obtain ⟨j, hj, rfl⟩ := List.getElem_of_mem hb
      exact hge j hj (Nat.zero_le _)
    | succ i =>
      -- the key belongs after block `i` and before block `i + 1`
      have hi : i < gs.length := by have := hq.le_length; omega
      have hlt := hq.below i (by omega) (Nat.lt_succ_self i)
      rw [hcmp i hi] at hlt
      exact Or.inr (hblock i hi (Std.le_of_lt (Std.compare_eq_lt.1 hlt)) fun j hj hij => hge j hj hij)

theorem Ascending.le_getLast {l : List Record} (h : Ascending l) {e : Record} (he : e ∈ l)
    {max : Bytes} (hmax : (l.map Prod.fst).getLast? = some max) : e.1 ≤ max := by
  obtain ⟨l', hl⟩ := List.getLast?_eq_some_iff.1 hmax
  obtain ⟨l₁, l₂, rfl, rfl, h₂⟩ := List.map_eq_append_iff.1 hl
  obtain ⟨e₂, rfl, rfl⟩ := List.map_eq_singleton_iff.1 h₂
  rcases List.mem_append.1 he with he | he
  · exact Std.le_of_lt ((List.pairwise_append.1 h).2.2 e he e₂ (List.mem_singleton_self _))
  · rw [List.mem_singleton.1 he]; exact Std.le_refl _

theorem mem_of_lookup {l : List Record} {entry : Entry} (h : l.lookup key = some entry) :
    (key, entry) ∈ l := by
  obtain ⟨l₁, l₂, rfl, -⟩ := List.lookup_eq_some_iff.1 h
  simp

/-- A key outside the key range is not in the table. -/
theorem outOfRange_lookup {entries : List Record} (h : Ascending entries) {t : SsTable}
    (hmin : t.minKey = (entries.map Prod.fst).head?) (hmax : t.maxKey = (entries.map Prod.fst).getLast?)
    (hout : t.outOfRange key = true) : entries.lookup key = none := by
  cases hl : entries.lookup key with
  | none => rfl
  | some entry =>
    have hmem := mem_of_lookup hl
    unfold SsTable.outOfRange at hout
    rw [hmin, hmax] at hout
    cases hlast : (entries.map Prod.fst).getLast? with
    | none => rw [hlast] at hout; simp at hout
    | some max =>
      have hle := h.le_getLast hmem hlast
      cases entries with
      | nil => cases hmem
      | cons e es =>
        rw [hlast] at hout
        have hge : firstKey (e :: es) ≤ key := firstKey_le h hmem
        simp only [List.map_cons, List.head?_cons, Bool.or_eq_true, decide_eq_true_eq] at hout
        rcases hout with hlt | hlt
        · exact absurd (Std.lt_of_lt_of_le hlt hge) Std.lt_irrefl
        · exact absurd (Std.lt_of_lt_of_le hlt hle) Std.lt_irrefl

theorem sized_new {n : ℕ} (h : (BloomFilter.new n).bits.length < 2 ^ 32) :
    (BloomFilter.new n).Sized :=
  ⟨BloomFilter.new_bits_ne_nil n, by omega⟩

/-- The filter of a table answers every query, and it lets every key of the table through. -/
theorem passesBloom_lookup (key : Bytes) {entries : List Record} {t : SsTable} (ht : t.bloom = tableBloom entries)
    (hsize : (BloomFilter.new entries.length).bits.length < 2 ^ 32) :
    ∃ b, t.passesBloom key = .ok b ∧ (b = false → entries.lookup key = none) := by
  unfold SsTable.passesBloom
  rw [ht]
  unfold tableBloom bloomOf
  by_cases hnil : entries.map Prod.fst = []
  · rw [if_pos hnil]
    exact ⟨true, rfl, fun h => by cases h⟩
  · rw [if_neg hnil]
    have hs := sized_new hsize
    have hlen : (entries.map Prod.fst).length = entries.length := List.length_map _
    rw [← hlen] at hs
    have hne : ((entries.map Prod.fst).foldl BloomFilter.add
        (BloomFilter.new (entries.map Prod.fst).length)).bits ≠ [] := by
      rw [← List.length_pos_iff, (BloomFilter.foldl_add_like _ _).1, List.length_pos_iff]
      exact hs.ne_nil
    obtain ⟨b, hb⟩ := BloomFilter.maybeContains_isOk hne key
    refine ⟨b, hb, fun hfalse => ?_⟩
    cases hl : entries.lookup key with
    | none => rfl
    | some entry =>
      have hmem : key ∈ entries.map Prod.fst := List.mem_map.2 ⟨_, mem_of_lookup hl, rfl⟩
      rw [BloomFilter.maybeContains_foldl_add hs hmem] at hb
      cases hb; cases hfalse

/-- The listing of a map looks a key up as the map does. -/
theorem lookup_toList (M : Std.ExtTreeMap Bytes Entry compare) (key : Bytes) :
    M.toList.lookup key = M[key]? := by
  cases hk : M[key]? with
  | none =>
    rw [List.lookup_eq_none_iff]
    intro e he
    simp only [bne_iff_ne, ne_eq]
    rintro rfl
    rw [Std.ExtTreeMap.mem_toList_iff_getElem?_eq_some.1 he] at hk
    cases hk
  | some entry =>
    obtain ⟨l₁, l₂, hl⟩ := List.append_of_mem (Std.ExtTreeMap.mem_toList_iff_getElem?_eq_some.2 hk)
    rw [hl, List.lookup_append, List.lookup_cons_self]
    have hasc := OrderedMap.pairwise_lt_toList M
    rw [hl] at hasc
    rw [lookup_eq_none_of_gt fun e he =>
      (List.pairwise_append.1 hasc).2.2 e he _ (List.mem_cons_self ..), Option.none_or]

theorem ascending_toList (M : Std.ExtTreeMap Bytes Entry compare) : Ascending M.toList :=
  OrderedMap.pairwise_lt_toList M

end FerrumDB
