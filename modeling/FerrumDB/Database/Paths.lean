import FerrumDB.Database.Tree

/-!
# Paths and places

A table name is one component, so the path of a table leads one step further than the root
(`wayOf_joinPath`). A string is opened as it was joined if the root is UTF-8 (`storePath_eq`).
-/

namespace FerrumDB

variable {cwd : Place} {root : Path} {name : String} {c : Bytes}

/-! ## Strings as paths -/

/-- Only a slash is encoded with the byte of a slash. -/
theorem slash_of_mem_utf8EncodeChar {ch : Char} (h : 47 ∈ String.utf8EncodeChar ch) : ch = '/' := by
  have hbyte : ∀ n, n < 256 → (47 : UInt8) = UInt8.ofNat n → n = 47 := by
    intro n hn heq
    have := congrArg UInt8.toNat heq
    rw [UInt8.toNat_ofNat', Nat.mod_eq_of_lt hn] at this
    exact this.symm
  -- the bytes of a longer encoding are at least 128
  have hlong : ∀ n, 128 ≤ n → n < 256 → (47 : UInt8) ≠ UInt8.ofNat n := by
    intro n hle hn heq
    have := hbyte n hn heq
    omega
  unfold String.utf8EncodeChar at h
  dsimp only at h
  split_ifs at h
  · have hval := hbyte _ (by omega) (List.mem_singleton.1 h)
    exact Char.ext (UInt32.toNat_inj.1 hval)
  · simp only [List.mem_cons, List.not_mem_nil, or_false] at h
    rcases h with h | h
    all_goals exact absurd h (hlong _ (by omega) (by omega))
  · simp only [List.mem_cons, List.not_mem_nil, or_false] at h
    rcases h with h | h | h
    all_goals exact absurd h (hlong _ (by omega) (by omega))
  · simp only [List.mem_cons, List.not_mem_nil, or_false] at h
    rcases h with h | h | h | h
    all_goals exact absurd h (hlong _ (by omega) (by omega))

theorem pathOf_eq (s : String) : pathOf s = s.toList.flatMap String.utf8EncodeChar := by
  unfold pathOf
  show s.toByteArray.data.toList = _
  rw [← String.utf8Encode_toList, List.utf8Encode]
  simp

theorem slash_of_mem_pathOf {s : String} (h : 47 ∈ pathOf s) : '/' ∈ s.toList := by
  rw [pathOf_eq] at h
  obtain ⟨ch, hch, hmem⟩ := List.mem_flatMap.1 h
  rwa [slash_of_mem_utf8EncodeChar hmem] at hch

theorem pathOf_append (s t : String) : pathOf (s ++ t) = pathOf s ++ pathOf t := by
  simp [pathOf_eq]

theorem pathOf_injective : Function.Injective pathOf := fun s t h => by
  have hs : ofUtf8Bytes (pathOf s) = some s := ofUtf8Bytes_utf8Bytes s
  rw [h] at hs
  exact Option.some.inj (hs.symm.trans (ofUtf8Bytes_utf8Bytes t))

theorem pathOf_of_ofUtf8Bytes {bs : Bytes} {s : String} (h : ofUtf8Bytes bs = some s) : pathOf s = bs := by
  unfold ofUtf8Bytes String.fromUTF8? at h
  split at h
  · cases h
    rfl
  · cases h

theorem lossyChars_flatMap (l : List Char) {n : ℕ} (h : (l.flatMap String.utf8EncodeChar).length ≤ n) :
    lossyChars n (l.flatMap String.utf8EncodeChar) = l := by
  induction l generalizing n with
  | nil => cases n <;> rfl
  | cons c l ih =>
    have hlen := String.length_utf8EncodeChar c
    have hpos := Char.utf8Size_pos c
    rw [List.flatMap_cons] at h ⊢
    rw [List.length_append] at h
    obtain ⟨m, rfl⟩ : ∃ m, n = m + 1 := ⟨n - 1, by omega⟩
    have hdecode : (String.utf8EncodeChar c ++ l.flatMap String.utf8EncodeChar).toByteArray.utf8DecodeChar? 0 =
        some c := by
      rw [List.toByteArray_append]
      exact ByteArray.utf8DecodeChar?_utf8EncodeChar_append
    obtain ⟨b, bs, hbytes⟩ : ∃ b bs, String.utf8EncodeChar c ++ l.flatMap String.utf8EncodeChar = b :: bs := by
      refine List.exists_cons_of_ne_nil fun hnil => ?_
      rw [(List.append_eq_nil_iff.1 hnil).1] at hlen
      exact absurd hlen.symm hpos.ne'
    have hdrop : (String.utf8EncodeChar c ++ l.flatMap String.utf8EncodeChar).drop c.utf8Size =
        l.flatMap String.utf8EncodeChar := List.drop_left' hlen
    rw [hbytes] at hdecode hdrop ⊢
    unfold lossyChars
    rw [hdecode]
    dsimp only
    rw [hdrop, ih (by omega)]

/-- What is UTF-8 is taken as it is. -/
theorem toStringLossy_pathOf (s : String) : toStringLossy (pathOf s) = s := by
  unfold toStringLossy
  rw [pathOf_eq, lossyChars_flatMap _ le_rfl, String.ofList_toList]

/-! ## Names as components -/

/-- A component that leads to a place below. -/
structure IsName (c : Bytes) : Prop where
  ne_nil : c ≠ []
  noSlash : 47 ∉ c
  ne_dot : c ≠ [46]
  ne_dotDot : c ≠ [46, 46]

theorem isName_pathOf (h : validateName name = .ok ()) : IsName (pathOf name) := by
  unfold validateName at h
  split_ifs at h with hbad
  simp only [not_or] at hbad
  obtain ⟨hempty, hslash, -, hdot, hdots⟩ := hbad
  exact ⟨fun h => hempty (pathOf_injective h), fun h => hslash (slash_of_mem_pathOf h),
    fun h => hdot (pathOf_injective h), fun h => hdots (pathOf_injective h)⟩

theorem enter_name (h : IsName c) (place : Place) : place.enter c = c :: place := if_neg h.ne_dotDot

theorem components_nil : components [] = [] := rfl

theorem components_append (a b : Bytes) : components (a ++ 47 :: b) = components a ++ components b := by
  unfold components
  rw [List.splitOn_append_cons_self, List.filter_append]

theorem components_name (h : IsName c) : components c = [c] := by
  unfold components
  rw [List.splitOn_eq_singleton h.noSlash]
  simp [h.ne_nil, h.ne_dot]

/-! ## The way of a joined path -/

/-- Joining puts a slash between the root and the name where one is needed. -/
theorem joinPath_cases (root : Path) (name : String) : (root = [] ∧ joinPath root name = pathOf name) ∨
    (∃ r, root = r ++ [47] ∧ joinPath root name = r ++ 47 :: pathOf name) ∨
      root ≠ [] ∧ joinPath root name = root ++ 47 :: pathOf name := by
  unfold joinPath
  by_cases hnil : root = []
  · exact Or.inl ⟨hnil, by rw [if_pos (Or.inl hnil), hnil, List.nil_append]⟩
  by_cases hlast : root.getLast? = some 47
  · obtain ⟨r, rfl⟩ := List.getLast?_eq_some_iff.1 hlast
    exact Or.inr (Or.inl ⟨r, rfl, by rw [if_pos (Or.inr hlast), List.append_assoc]; rfl⟩)
  · exact Or.inr (Or.inr ⟨hnil, if_neg (not_or.2 ⟨hnil, hlast⟩)⟩)

theorem components_joinPath (h : IsName (pathOf name)) (root : Path) :
    components (joinPath root name) = components root ++ [pathOf name] := by
  rcases joinPath_cases root name with ⟨rfl, hjoin⟩ | ⟨r, rfl, hjoin⟩ | ⟨-, hjoin⟩
  · rw [hjoin, components_name h, components_nil, List.nil_append]
  · rw [hjoin, components_append, components_append, components_nil, List.append_nil, components_name h]
  · rw [hjoin, components_append, components_name h]

theorem startOf_joinPath (h : IsName (pathOf name)) (root : Path) :
    startOf cwd (joinPath root name) = startOf cwd root := by
  unfold startOf
  rcases joinPath_cases root name with ⟨rfl, hjoin⟩ | ⟨r, rfl, hjoin⟩ | ⟨hne, hjoin⟩
  · rw [hjoin, if_neg, if_neg (by simp)]
    intro hhead
    exact h.noSlash (List.mem_of_mem_head? hhead)
  · rw [hjoin]
    cases r <;> rfl
  · obtain ⟨x, r, rfl⟩ := List.exists_cons_of_ne_nil hne
    rw [hjoin]
    rfl

theorem joinPath_ne_nil (h : IsName (pathOf name)) (root : Path) : joinPath root name ≠ [] := by
  intro hnil
  have hcomp := components_joinPath h root
  rw [hnil, components_nil] at hcomp
  simp at hcomp

theorem nul_mem_joinPath : 0 ∈ joinPath root name ↔ 0 ∈ root ∨ 0 ∈ pathOf name := by
  rcases joinPath_cases root name with ⟨rfl, hjoin⟩ | ⟨r, rfl, hjoin⟩ | ⟨-, hjoin⟩
  · simp [hjoin]
  · simp [hjoin]
  · simp [hjoin]

theorem wayFrom_concat (place : Place) (cs : List Bytes) (c : Bytes) :
    wayFrom place (cs ++ [c]) = wayFrom place cs ++ [(cs.foldl Place.enter place).enter c] := by
  induction cs generalizing place with
  | nil => rfl
  | cons d cs ih => rw [List.cons_append, wayFrom, ih]; rfl

theorem getLast?_wayFrom (place : Place) (cs : List Bytes) :
    (wayFrom place cs).getLast? = some (cs.foldl Place.enter place) := by
  induction cs using List.reverseRecOn with
  | nil => rfl
  | append_singleton cs c ih => rw [wayFrom_concat, List.getLast?_concat, List.foldl_concat]

theorem placeOf_mem_wayOf (cwd : Place) (path : Path) : placeOf cwd path ∈ wayOf cwd path :=
  List.mem_of_getLast? (getLast?_wayFrom ..)

theorem startOf_mem_wayOf (cwd : Place) (path : Path) : startOf cwd path ∈ wayOf cwd path := by
  unfold wayOf
  cases components path <;> exact List.mem_cons_self ..

theorem wayOf_joinPath (h : IsName (pathOf name)) (cwd : Place) (root : Path) :
    wayOf cwd (joinPath root name) = wayOf cwd root ++ [pathOf name :: placeOf cwd root] := by
  unfold wayOf
  rw [components_joinPath h, startOf_joinPath h, wayFrom_concat, enter_name h]
  rfl

theorem placeOf_joinPath (h : IsName (pathOf name)) (cwd : Place) (root : Path) :
    placeOf cwd (joinPath root name) = pathOf name :: placeOf cwd root := by
  unfold placeOf
  rw [components_joinPath h, startOf_joinPath h, List.foldl_concat, enter_name h]

/-! ## The path of a store -/

variable {lossy : Path → String} {db : Database}

theorem storePath_eq (hlossy : ∀ s, lossy (pathOf s) = s) {s : String} (hroot : db.root = pathOf s) (name : String) :
    db.storePath lossy name = joinPath db.root name := by
  have hjoin : ∃ u, joinPath db.root name = pathOf u := by
    rcases joinPath_cases db.root name with ⟨-, hjoin⟩ | ⟨r, hr, hjoin⟩ | ⟨-, hjoin⟩
    · exact ⟨name, hjoin⟩
    · refine ⟨s ++ name, ?_⟩
      rw [hjoin, pathOf_append, ← hroot, hr, List.append_assoc]
      rfl
    · refine ⟨s ++ "/" ++ name, ?_⟩
      rw [hjoin, pathOf_append, pathOf_append, hroot, List.append_assoc]
      rfl
  obtain ⟨u, hu⟩ := hjoin
  unfold Database.storePath Database.storeDir
  rw [hu, hlossy]

end FerrumDB
