import FerrumDB.Store.Invariant

/-!
# Range scans

A scan overlays the entries within its bounds, oldest table first and the memtable last, and drops
the tombstones (`Layers.scan`). A table is skipped only when its key range leaves no key within the
bounds (`not_inBounds_of_not_overlaps`), so a scan lists exactly the live keys within the bounds
(`mem_scan`), each of them once and in order (`scan_ascending`).
-/

namespace FerrumDB

open Overlay

variable {env : Env} {s : Store} {d : Disk} {L : Layers} {p : Prost} {lo hi : Bound}

/-! ## Bounds and key ranges -/

/-- No key of a range that does not overlap the bounds lies within them. -/
theorem not_inBounds_of_not_overlaps {min max key : Bytes} (h : rangeOverlaps min max lo hi = false)
    (hmin : min ≤ key) (hmax : key ≤ max) : inBounds key lo hi = false := by
  have hskip : (∃ b, lo = .included b ∧ max < b) ∨ (∃ b, lo = .excluded b ∧ max ≤ b) ∨
      (∃ b, hi = .included b ∧ b < min) ∨ (∃ b, hi = .excluded b ∧ b ≤ min) := by
    unfold rangeOverlaps at h
    cases lo <;> cases hi <;> simp_all <;> tauto
  unfold inBounds
  rw [Bool.and_eq_false_iff]
  rcases hskip with ⟨b, rfl, hb⟩ | ⟨b, rfl, hb⟩ | ⟨b, rfl, hb⟩ | ⟨b, rfl, hb⟩
  · refine Or.inl (decide_eq_false fun hle => ?_)
    exact Std.lt_irrefl (Std.lt_of_le_of_lt (Std.le_trans hle hmax) hb)
  · refine Or.inl (decide_eq_false fun hlt => ?_)
    exact Std.lt_irrefl (Std.lt_of_lt_of_le hlt (Std.le_trans hmax hb))
  · refine Or.inr (decide_eq_false fun hle => ?_)
    exact Std.lt_irrefl (Std.lt_of_lt_of_le hb (Std.le_trans hmin hle))
  · refine Or.inr (decide_eq_false fun hlt => ?_)
    exact Std.lt_irrefl (Std.lt_of_le_of_lt (Std.le_trans hb hmin) hlt)

/-- A handle whose key range does not overlap the bounds has no entry within them. -/
theorem SsTable.Serves.filter_eq_nil {tb : SsTable} {entries : List Record} (h : tb.Serves p entries)
    (hasc : Ascending entries) {min max : Bytes} (hrange : tb.keyRange = some (min, max))
    (hskip : rangeOverlaps min max lo hi = false) :
    entries.filter (fun e => inBounds e.1 lo hi) = [] := by
  rw [List.filter_eq_nil_iff]
  intro e he
  unfold SsTable.keyRange at hrange
  rw [h.minKey, h.maxKey] at hrange
  cases entries with
  | nil => cases he
  | cons x xs =>
    cases hlast : ((x :: xs).map Prod.fst).getLast? with
    | none => rw [hlast] at hrange; simp at hrange
    | some m =>
      rw [hlast] at hrange
      simp only [List.map_cons, List.head?_cons, Option.some.injEq, Prod.mk.injEq] at hrange
      obtain ⟨rfl, rfl⟩ := hrange
      rw [not_inBounds_of_not_overlaps hskip (firstKey_le hasc he) (hasc.le_getLast he hlast)]
      simp

/-! ## The listing -/

/-- Overlay the entries of a map that are within the bounds. -/
def overlayWithin (lo hi : Bound) (m c : Memtable) : Memtable :=
  m.insertMany (c.toList.filter fun e => inBounds e.1 lo hi)

theorem layer_overlayWithin (m m' : Memtable) (key : Bytes) :
    layer (overlayWithin lo hi m m') key =
      if inBounds key lo hi then (layer m' key).or (layer m key) else layer m key := by
  have hfilter : (m'.toList.filter fun e => inBounds e.1 lo hi) =
      (m'.filter fun k _ => inBounds k lo hi).toList :=
    (Std.ExtTreeMap.toList_filter (f := fun k _ => inBounds k lo hi)).symm
  unfold overlayWithin layer
  rw [hfilter, OrderedMap.getElem?_insertMany_toList, Std.ExtTreeMap.getElem?_filter']
  cases m'[key]? <;> cases inBounds key lo hi <;> rfl

/-- The tables overlaid within the bounds, oldest first. -/
def scanned (lo hi : Bound) (tables : List (ℕ × Memtable)) : Memtable :=
  tables.reverse.foldl (fun m t => overlayWithin lo hi m t.2) ∅

theorem layer_scanned (tables : List (ℕ × Memtable)) (key : Bytes) :
    layer (scanned lo hi tables) key =
      if inBounds key lo hi then first (tables.map fun t => layer t.2) key else none := by
  have hnone : layer ∅ key = none := Std.ExtTreeMap.getElem?_empty
  induction tables with
  | nil =>
    show layer ∅ key = _
    rw [hnone, List.map_nil, first_nil, ite_self]
  | cons t tables ih =>
    have hcons : scanned lo hi (t :: tables) = overlayWithin lo hi (scanned lo hi tables) t.2 := by
      unfold scanned
      rw [List.reverse_cons, List.foldl_append]
      rfl
    rw [hcons, layer_overlayWithin, ih, List.map_cons, first_cons]
    split <;> rfl

/-- What a scan lists. -/
def Layers.scan (lo hi : Bound) (L : Layers) : List (Bytes × Value) :=
  (overlayWithin lo hi (scanned lo hi L.tables) L.data).toList.filterMap fun e => e.2.live.map (e.1, ·)

/-- **A scan lists the live keys within its bounds.** -/
theorem mem_scan {key : Bytes} {v : Value} :
    (key, v) ∈ L.scan lo hi ↔ inBounds key lo hi = true ∧ L.get key = some v := by
  have hlayer : layer (overlayWithin lo hi (scanned lo hi L.tables) L.data) key =
      if inBounds key lo hi then first L.stack key else none := by
    rw [layer_overlayWithin, layer_scanned]
    split <;> rfl
  have hmem : (key, v) ∈ L.scan lo hi ↔ ∃ e : Entry,
      layer (overlayWithin lo hi (scanned lo hi L.tables) L.data) key = some e ∧ e.live = some v := by
    unfold Layers.scan
    rw [List.mem_filterMap]
    constructor
    · rintro ⟨⟨k, e⟩, he, hv⟩
      obtain ⟨w, hw, hkw⟩ := Option.map_eq_some_iff.1 hv
      rw [Prod.mk.injEq] at hkw
      obtain ⟨rfl, rfl⟩ := hkw
      exact ⟨e, Std.ExtTreeMap.mem_toList_iff_getElem?_eq_some.1 he, hw⟩
    · rintro ⟨e, he, hv⟩
      exact ⟨(key, e), Std.ExtTreeMap.mem_toList_iff_getElem?_eq_some.2 he, by rw [hv]; rfl⟩
  rw [hmem, hlayer]
  unfold Layers.get resolve
  cases hin : inBounds key lo hi with
  | false => simp
  | true => rw [if_pos rfl, Option.bind_eq_some_iff]; simp

/-- The keys of a scan are strictly ascending. -/
theorem scan_ascending (L : Layers) : (L.scan lo hi).Pairwise fun x y => x.1 < y.1 := by
  unfold Layers.scan
  rw [List.pairwise_filterMap]
  refine (OrderedMap.pairwise_lt_toList _).imp fun {x y} hlt v hv w hw => ?_
  obtain ⟨_, -, rfl⟩ := Option.map_eq_some_iff.1 hv
  obtain ⟨_, -, rfl⟩ := Option.map_eq_some_iff.1 hw
  exact hlt

/-- A scan depends on what the keys read as, not on the layers. -/
theorem scan_eq_of_get_eq {L' : Layers} (h : L.get = L'.get) : L.scan lo hi = L'.scan lo hi := by
  refine OrderedMap.eq_of_mem_iff (scan_ascending L) (scan_ascending L') ?_
  rintro ⟨key, v⟩
  rw [mem_scan, mem_scan, h]

theorem scan_eq_nil (h : ∀ key, inBounds key lo hi = false) : L.scan lo hi = [] := by
  rw [List.eq_nil_iff_forall_not_mem]
  rintro ⟨key, v⟩ hmem
  have hin := (mem_scan.1 hmem).1
  rw [h key] at hin
  cases hin

/-! ## The scan of a store -/

/-- The memtable can be asked for the bounds: it is empty, or `BTreeMap::range` accepts them. -/
def Store.Scannable (s : Store) (lo hi : Bound) : Prop := s.data.isEmpty = true ∨ rangeAccepts lo hi = true

theorem Store.Scannable.dataRange (h : s.Scannable lo hi) :
    s.dataRange lo hi = .ok (s.data.toList.filter fun e => inBounds e.1 lo hi) := by
  unfold Store.dataRange
  rw [if_neg]
  rintro ⟨hne, hrej⟩
  rcases h with h | h
  · rw [hne] at h; cases h
  · rw [hrej] at h; cases h

theorem dataRange_of_not_scannable (h : ¬ s.Scannable lo hi) : s.dataRange lo hi = .error .panic := by
  unfold Store.Scannable at h
  rw [not_or, Bool.not_eq_true, Bool.not_eq_true] at h
  exact if_pos h

theorem does_scanTables (hp : p.Lawful) {hs : List SsTable} {ts : List (ℕ × Memtable)}
    (h : List.Forall₂ (SsTable.HandleOf p) hs ts)
    (hfiles : ∀ x ∈ ts, ∃ f, d.files[sstName x.1]? = some f ∧ f.Holds p x.2.toList)
    (merged : Memtable) {Q : Memtable → Store → Disk → Prop} {E : Stop → Store → Disk → Prop}
    (hQ : Q (ts.foldl (fun m t => overlayWithin lo hi m t.2) merged) s d)
    (hE : ∀ e, env.Faults (fun c => ∃ x ∈ ts, readCalls (sstName x.1) c) e → E e s d) :
    Does env (Store.scanTables p lo hi hs merged) s d Q E := by
  induction h generalizing merged with
  | nil => exact .pure hQ
  | @cons tb x hs ts hr _ ih =>
    obtain ⟨f, hf, hholds⟩ := hfiles x (List.mem_cons_self ..)
    have ih := fun merged hQ => ih (fun y hy => hfiles y (List.mem_cons_of_mem _ hy)) merged hQ
      fun e he => hE e (he.mono fun c ⟨y, hy, hc⟩ => ⟨y, List.mem_cons_of_mem _ hy, hc⟩)
    have hread : Does env (do
        let entries ← tb.readAllEntries p
        Store.scanTables p lo hi hs
          (merged.insertMany (entries.filter fun e => inBounds e.1 lo hi))) s d Q E := by
      refine Does.bind (does_readAllEntries hp (by rw [hr.path]; exact hf) hholds hr.serves.index
        (ih _ hQ) fun e he => hE e (he.mono fun c hc => ⟨x, List.mem_cons_self .., ?_⟩))
      rw [← hr.path]
      exact hc
    unfold Store.scanTables
    cases hrange : tb.keyRange with
    | none =>
      dsimp only
      rw [if_neg (by simp)]
      exact hread
    | some r =>
      obtain ⟨min, max⟩ := r
      dsimp only
      by_cases hover : rangeOverlaps min max lo hi = true
      · rw [if_neg (by simp [hover])]
        exact hread
      · -- nothing is lost by skipping the table
        rw [if_pos (by simpa using hover)]
        have hsame : overlayWithin lo hi merged x.2 = merged := by
          unfold overlayWithin
          rw [hr.serves.filter_eq_nil hholds.ascending hrange (by simpa using hover)]
          exact Std.ExtTreeMap.insertMany_nil
        refine ih merged ?_
        rw [List.foldl_cons, hsame] at hQ
        exact hQ

/-- The tables are read first, then the memtable. -/
theorem does_scanRange_tables (hp : p.Lawful) (h : Running p s d L)
    {Q : List (Bytes × Value) → Store → Disk → Prop} {E : Stop → Store → Disk → Prop}
    (hQ : Does env (do
      let range ← ofStop (s.dataRange lo hi)
      return ((scanned lo hi L.tables).insertMany range).toList.filterMap fun e => e.2.live.map (e.1, ·)) s d Q E)
    (hE : ∀ e, env.Faults (onTables L) e → E e s d) :
    Does env (Store.scanRange p lo hi) s d Q E := by
  unfold Store.scanRange
  refine .withSelf (Does.bind (does_scanTables hp (List.forall₂_reverse_iff.2 h.handles)
    (fun x hx => h.table x (List.mem_reverse.1 hx)) ∅ hQ fun e he => ?_))
  exact hE e (he.mono fun c ⟨x, hx, hc⟩ => ⟨x, List.mem_reverse.1 hx, hc⟩)

/-- **A scan of a store** lists what its layers say. -/
theorem does_scanRange (hp : p.Lawful) (h : Running p s d L) (hscan : s.Scannable lo hi)
    {Q : List (Bytes × Value) → Store → Disk → Prop} {E : Stop → Store → Disk → Prop}
    (hQ : Q (L.scan lo hi) s d) (hE : ∀ e, env.Faults (onTables L) e → E e s d) :
    Does env (Store.scanRange p lo hi) s d Q E := by
  refine does_scanRange_tables hp h ?_ hE
  rw [hscan.dataRange, h.data]
  exact Does.bind (.pure (.pure hQ))

/-- **A scan panics** on bounds that a memtable with entries rejects. -/
theorem does_scanRange_panics (hp : p.Lawful) (h : Running p s d L) (hscan : ¬ s.Scannable lo hi)
    {Q : List (Bytes × Value) → Store → Disk → Prop} {E : Stop → Store → Disk → Prop}
    (hpanic : E .panic s d) (hE : ∀ e, env.Faults (onTables L) e → E e s d) :
    Does env (Store.scanRange p lo hi) s d Q E := by
  refine does_scanRange_tables hp h ?_ hE
  rw [dataRange_of_not_scannable hscan]
  exact Does.bind (.throw hpanic)

end FerrumDB
