import PieceIndex.Proofs.Beside
import PieceIndex.Proofs.KeyMap.Search

/-!
Looking up, storing and adding. Each brings a key to the root first, which turns links only; then a
lookup reads the root, a store writes the value there, and a new key takes over one side of the root
and has the root on its other side. What each does to the bindings is said on the array in which
they lie.
-/
namespace PieceIndex
namespace KeyMap
variable {V : Type} {map after : KeyMap V} {shape : Shape}

theorem WellFormedAs.of_links (entries : Entries V) (links : Links entries shape)
    (ascending : Ascending (keyAt entries) shape.inOrder) (nodup : shape.inOrder.Nodup)
    (full : ∀ index < entries.size, index ∈ shape.inOrder) :
    WellFormedAs ⟨entries, shape.root⟩ shape :=
  ⟨⟨links, (ascending_iff (links_iff.mp links).1).mpr ascending⟩, rfl, nodup, full⟩

/-- The root entry links to the subtrees of the shape. -/
theorem WellFormedAs.child_root (well : map.WellFormedAs shape) {root : Nat}
    (top : shape.root = some root) {here : Entry V} (found : map.entries[root]? = some here)
    (side : Side) : here.child side = (shape.on side).root := by
  rw [← childOf_found found]
  exact well.links.childOf_root top side

theorem lt_size_of_pairs {entries : Entries V} {index : Nat} {binding : Nat × V}
    (h : (pairs entries)[index]? = some binding) : index < entries.size := by
  rw [← size_pairs]
  exact (Array.getElem?_eq_some_iff.mp h).1

theorem keyAt_of_pairs {entries : Entries V} {index key : Nat} {value : V}
    (h : (pairs entries)[index]? = some (key, value)) : keyAt entries index = key := by
  simp [keyAt, h]

/-- No key lies in two places. -/
theorem WellFormedAs.index_unique (well : map.WellFormedAs shape) {i j key : Nat} {v w : V}
    (hi : (pairs map.entries)[i]? = some (key, v)) (hj : (pairs map.entries)[j]? = some (key, w)) :
    i = j := by
  have insidei := well.full i (lt_size_of_pairs hi)
  have insidej := well.full j (lt_size_of_pairs hj)
  have topi := Shape.root_seek_of_mem well.keys_ascending insidei
  have topj := Shape.root_seek_of_mem well.keys_ascending insidej
  rw [keyAt_of_pairs hi] at topi
  rw [keyAt_of_pairs hj, topi] at topj
  exact Option.some.inj topj

theorem WellFormedAs.splayRoot (well : map.WellFormedAs shape) (key : Nat) :
    ∃ after, map.splayRoot key = .ok (after, after.root) ∧
      after.WellFormedAs (shape.seek (keyAt map.entries) key) ∧
      pairs after.entries = pairs map.entries := by
  obtain ⟨entries, root⟩ := map
  have top := well.root_eq
  cases root with
  | none =>
    obtain rfl := Shape.root_eq_none.mp top.symm
    rw [Shape.seek_empty]
    exact ⟨_, rfl, well, rfl⟩
  | some root =>
    have nonempty : shape ≠ .empty := by
      rintro rfl
      cases top
    obtain ⟨after, root', splayed, top', links, keeps⟩ :=
      exists_splay well.links well.nodup top.symm key
    have order := Shape.inOrder_seek (keyAt entries) key nonempty
    refine ⟨⟨after, some root'⟩, ?_, ?_, keeps.pairs_eq⟩
    · rw [KeyMap.splayRoot]
      dsimp only
      rw [splayed]
      rfl
    · have well' := WellFormedAs.of_links after links
        (by rw [keeps.keyAt, order]; exact well.keys_ascending) (by rw [order]; exact well.nodup)
        (fun index h => by rw [order]; exact well.full index (by rwa [keeps.size] at h))
      rwa [top'] at well'

/-- A search finds the place of a key and its value where it is there, and nothing elsewhere. -/
theorem WellFormedAs.find (well : map.WellFormedAs shape) (key : Nat) :
    ∃ after found, map.find key = .ok (after, found) ∧
      after.WellFormedAs (shape.seek (keyAt map.entries) key) ∧
      pairs after.entries = pairs map.entries ∧
      ∀ index value,
        found = some (index, value) ↔ (pairs map.entries)[index]? = some (key, value) := by
  obtain ⟨after, splayed, well', same⟩ := well.splayRoot key
  cases top : after.root with
  | none =>
    refine ⟨after, none, ?_, well', same, fun index value => ⟨nofun, fun h => ?_⟩⟩
    · rw [KeyMap.find, splayed, ok_bind, top]
      rfl
    · rw [← same] at h
      have inside := well'.full index (lt_size_of_pairs h)
      rw [Shape.root_eq_none.mp (well'.root_eq.symm.trans top)] at inside
      cases inside
  | some root =>
    have shapeTop := well'.root_eq.symm.trans top
    obtain ⟨here, found⟩ := exists_found (well'.inRange root (Shape.mem_inOrder_of_root shapeTop))
    have binding := pairs_found found
    rw [same] at binding
    refine ⟨after, if here.key = key then some (root, here.value) else none, ?_, well', same,
      fun index value => ⟨fun h => ?_, fun h => ?_⟩⟩
    · rw [KeyMap.find, splayed, ok_bind, top]
      dsimp only
      rw [entry_eq_ok.mpr found]
      rfl
    · by_cases present : here.key = key
      · rw [if_pos present] at h
        cases h
        rw [binding, Entry.binding, present]
      · rw [if_neg present] at h
        cases h
    · have inside := well.full index (lt_size_of_pairs h)
      have topAt := Shape.root_seek_of_mem well.keys_ascending inside
      rw [keyAt_of_pairs h, shapeTop] at topAt
      cases topAt
      rw [binding, Entry.binding, Option.some.injEq, Prod.mk.injEq] at h
      rw [if_pos h.1, h.2]

theorem WellFormedAs.get (well : map.WellFormedAs shape) (key : Nat) :
    ∃ after result, map.get key = .ok (after, result) ∧
      after.WellFormedAs (shape.seek (keyAt map.entries) key) ∧
      pairs after.entries = pairs map.entries ∧
      ∀ value, result = some value ↔ (key, value) ∈ pairs map.entries := by
  obtain ⟨after, found, h, well', same, exact⟩ := well.find key
  refine ⟨after, found.map (·.2), ?_, well', same, fun value => ?_⟩
  · rw [KeyMap.get, h]
    rfl
  · rw [Array.mem_iff_getElem?]
    constructor
    · intro result
      obtain ⟨⟨index, v⟩, here, rfl⟩ := Option.map_eq_some_iff.mp result
      exact ⟨index, (exact index v).mp here⟩
    · rintro ⟨index, inside⟩
      rw [(exact index value).mpr inside]
      rfl

theorem WellFormedAs.contains (well : map.WellFormedAs shape) (key : Nat) :
    ∃ after result, map.contains key = .ok (after, result) ∧ after.WellFormed ∧
      pairs after.entries = pairs map.entries ∧
      (result = true ↔ ∃ value, (key, value) ∈ pairs map.entries) := by
  obtain ⟨after, found, h, well', same, exact⟩ := well.find key
  refine ⟨after, found.isSome, ?_, ⟨_, well'⟩, same, ?_⟩
  · rw [KeyMap.contains, h]
    rfl
  · simp only [Array.mem_iff_getElem?]
    constructor
    · intro result
      obtain ⟨⟨index, value⟩, here⟩ := Option.isSome_iff_exists.mp result
      exact ⟨value, index, (exact index value).mp here⟩
    · rintro ⟨value, index, inside⟩
      rw [(exact index value).mpr inside]
      rfl

/-- What storing a value does to the bindings: the one with the key, if there is one, is
replaced. -/
inductive Stores (key : Nat) (value : V) (before after : Array (Nat × V)) : Option V → Prop where
  | absent (missing : ∀ old, (key, old) ∉ before) (same : after = before) :
      Stores key value before after none
  | present {old : V} (index : Nat) (here : before[index]? = some (key, old))
      (replaced : after = before.setIfInBounds index (key, value)) :
      Stores key value before after (some old)

theorem pairs_modify_value (entries : Entries V) {index key : Nat} {old : V} (value : V)
    (here : (pairs entries)[index]? = some (key, old)) :
    pairs (entries.modify index ({ · with value := value })) =
      (pairs entries).setIfInBounds index (key, value) := by
  apply Array.ext_getElem?
  intro i
  rw [getElem?_pairs, getElem?_modify_entry, Array.getElem?_setIfInBounds]
  by_cases e : i = index
  · subst e
    rw [getElem?_pairs] at here
    obtain ⟨entry, found, binding⟩ := Option.map_eq_some_iff.mp here
    have key_eq : entry.key = key := congrArg Prod.fst binding
    rw [if_pos rfl, if_pos rfl, found, size_pairs, if_pos (lt_size_of_found found), ← key_eq]
    rfl
  · rw [if_neg e, if_neg (fun h => e h.symm), getElem?_pairs]

theorem childOf_modify_value (entries : Entries V) (index : Nat) (value : V) :
    childOf (entries.modify index ({ · with value := value })) = childOf entries := by
  funext i side
  rw [childOf, childOf, getElem?_modify_entry]
  by_cases e : i = index
  · rw [if_pos e]
    cases entries[i]? with
    | none => rfl
    | some entry => cases side <;> rfl
  · rw [if_neg e]

theorem keyAt_setIfInBounds {before after : Entries V} {index key : Nat} {old value : V}
    (here : (pairs before)[index]? = some (key, old))
    (replaced : pairs after = (pairs before).setIfInBounds index (key, value)) :
    keyAt after = keyAt before := by
  funext i
  rw [keyAt, keyAt, replaced, Array.getElem?_setIfInBounds]
  by_cases e : index = i
  · subst e
    rw [if_pos rfl, if_pos (by simpa using lt_size_of_pairs here), here]
    rfl
  · rw [if_neg e]

theorem WellFormedAs.set (well : map.WellFormedAs shape) (key : Nat) (value : V) :
    ∃ after result, map.set key value = .ok (after, result) ∧ after.WellFormed ∧
      Stores key value (pairs map.entries) (pairs after.entries) result := by
  obtain ⟨⟨entries, root⟩, found, h, well', same, exact⟩ := well.find key
  cases found with
  | none =>
    refine ⟨⟨entries, root⟩, none, ?_, ⟨_, well'⟩, .absent (fun old inside => ?_) same⟩
    · rw [KeyMap.set, h]
      rfl
    · obtain ⟨index, here⟩ := Array.mem_iff_getElem?.mp inside
      cases (exact index old).mpr here
  | some found =>
    obtain ⟨index, old⟩ := found
    have here := (exact index old).mp rfl
    have inside := here
    rw [← same] at inside
    have replaced := pairs_modify_value entries value inside
    have well'' := WellFormedAs.of_links (entries.modify index ({ · with value := value }))
      (links_iff.mpr ⟨by simpa using well'.inRange,
        by rw [childOf_modify_value]; exact (links_iff.mp well'.links).2⟩)
      (by rw [keyAt_setIfInBounds inside replaced]; exact well'.keys_ascending) well'.nodup
      (by simpa using well'.full)
    rw [← well'.root_eq] at well''
    refine ⟨_, some old, ?_, ⟨_, well''⟩, .present index here (by rw [replaced, same])⟩
    rw [KeyMap.set, h, ok_bind]
    dsimp only
    rw [update, if_pos (lt_size_of_pairs inside)]
    rfl

/-! A new entry at the end. -/

section push
variable (entries : Entries V) (entry : Entry V)

@[simp] theorem pairs_push : pairs (entries.push entry) = (pairs entries).push entry.binding := by
  simp [pairs]

theorem keyAt_push_of_lt {index : Nat} (h : index < entries.size) :
    keyAt (entries.push entry) index = keyAt entries index := by
  rw [keyAt, pairs_push, Array.getElem?_push, size_pairs, if_neg (Nat.ne_of_lt h), keyAt]

theorem keyAt_push_self : keyAt (entries.push entry) entries.size = entry.key := by
  rw [keyAt, pairs_push, Array.getElem?_push, size_pairs, if_pos rfl]
  rfl

theorem childOf_push (index : Nat) (side : Side) :
    childOf (entries.push entry) index side =
      if index = entries.size then entry.child side else childOf entries index side := by
  rw [childOf, Array.getElem?_push]
  by_cases new : index = entries.size
  · rw [if_pos new, if_pos new]
    rfl
  · rw [if_neg new, if_neg new, childOf]

end push

/-- The keys still ascend when a key is added directly beside the root that parts the others from
it. -/
theorem Ascending.insertBeside {keyAt : Nat → Nat} {side : Side} {id old : Nat} {shape : Shape}
    (ascending : Ascending keyAt shape.inOrder) (root : shape.root = some old)
    (heading : sideOf (keyAt id) (keyAt old) = some side)
    (cut : ∀ s, ∀ x ∈ (shape.on s).inOrder, sideOf (keyAt id) (keyAt x) = some s.other) :
    Ascending keyAt (shape.insertBeside side id).inOrder := by
  cases shape with
  | empty => cases root
  | node left top right =>
    cases root
    have below : ∀ x ∈ left.inOrder, keyAt x < keyAt id :=
      fun x h => sideOf_eq_right.mp (cut .left x h)
    have above : ∀ x ∈ right.inOrder, keyAt id < keyAt x :=
      fun x h => sideOf_eq_left.mp (cut .right x h)
    simp only [Ascending, Shape.inOrder, List.pairwise_append, List.pairwise_cons, List.mem_cons]
      at ascending
    obtain ⟨ascl, ⟨topr, ascr⟩, across⟩ := ascending
    cases side with
    | left =>
      have ahead := sideOf_eq_left.mp heading
      simp only [Ascending, Shape.insertBeside, Shape.sided, Shape.on, Shape.inOrder, Side.other,
        List.nil_append, List.pairwise_append, List.pairwise_cons, List.mem_cons]
      refine ⟨ascl, ⟨?_, topr, ascr⟩, ?_⟩
      · rintro x (rfl | h)
        · exact ahead
        · exact above x h
      · rintro x h y (rfl | h')
        · exact below x h
        · exact across x h y h'
    | right =>
      have behind := sideOf_eq_right.mp heading
      simp only [Ascending, Shape.insertBeside, Shape.sided, Shape.on, Shape.inOrder, Side.other,
        List.append_assoc, List.cons_append, List.nil_append, List.pairwise_append,
        List.pairwise_cons, List.mem_cons]
      refine ⟨ascl, ⟨?_, above, ascr⟩, ?_⟩
      · rintro x (rfl | h)
        · exact behind
        · exact topr x h
      · rintro x h y (rfl | rfl | h')
        · exact across x h _ (.inl rfl)
        · exact below x h
        · exact across x h y (.inr h')

/-- What adding a key does to the bindings: a new one comes to the end, and one that is there
stays. -/
inductive Adds (key : Nat) (value : V) (before after : Array (Nat × V)) : Bool → Prop where
  | present {old : V} (here : (key, old) ∈ before) (same : after = before) :
      Adds key value before after false
  | absent (missing : ∀ old, (key, old) ∉ before) (grown : after = before.push (key, value)) :
      Adds key value before after true

/-- The entry for a new key, which takes over one side of the root and has the root on its other. -/
def hung (key : Nat) (value : V) (side : Side) (taken root : Option Nat) : Entry V :=
  (({ key := key, value := value } : Entry V).withChild side taken).withChild side.other root

theorem child_hung (key : Nat) (value : V) (side s : Side) (taken root : Option Nat) :
    (hung key value side taken root).child s = if s = side then taken else root := by
  rw [hung, Entry.child_withChild_eq, Entry.child_withChild_eq]
  by_cases outer : s = side
  · rw [if_neg (outer ▸ (Side.other_ne side).symm), if_pos outer, if_pos outer]
  · rw [if_pos (Side.eq_other_of_ne outer), if_neg outer]

@[simp] theorem binding_hung (key : Nat) (value : V) (side : Side) (taken root : Option Nat) :
    (hung key value side taken root).binding = (key, value) := by
  rw [hung, Entry.binding_withChild, Entry.binding_withChild]
  rfl

/-- The new entry with the root turned away from it on that side. -/
theorem childOf_push_hung {entries after : Entries V} {root key : Nat} {side : Side} (value : V)
    (taken : Option Nat)
    (becomes : Becomes entries after [root] (rewire (childOf entries) (some root) side none)) :
    childOf (after.push (hung key value side taken (some root))) =
      insertTable (childOf entries) side entries.size root none taken (some root) := by
  funext i s
  rw [childOf_push, becomes.size, becomes.links_eq, child_hung, insertTable]
  by_cases new : i = entries.size
  · by_cases outer : s = side
    · simp [rewire, new, outer, (Side.other_ne side).symm]
    · simp [rewire, new, Side.eq_other_of_ne outer, Side.other_ne]
  · have elsewhere : some i ≠ some entries.size := by simpa using new
    rw [if_neg new, rewire_of_ne (rewire _ _ _ _) _ _ elsewhere,
      rewire_of_ne (rewire _ _ _ _) _ _ elsewhere]

/-- A new entry takes over the side of the root on which its key lies, and its place is the root. -/
theorem WellFormedAs.hang {entries : Entries V} {root key : Nat} {side : Side}
    (well : WellFormedAs ⟨entries, some root⟩ shape) (value : V)
    (heading : sideOf key (keyAt entries root) = some side)
    (cut : ∀ s, ∀ x ∈ (shape.on s).inOrder, sideOf key (keyAt entries x) = some s.other) :
    ∃ after, update entries root (·.withChild side none) = .ok after ∧
      pairs after = pairs entries ∧
      WellFormedAs ⟨after.push (hung key value side (shape.on side).root (some root)),
        some entries.size⟩ (shape.insertBeside side entries.size) := by
  have top : shape.root = some root := well.root_eq.symm
  have inRange (i : Nat) (h : i ∈ shape.inOrder) : i < entries.size := well.inRange i h
  have inside : root ∈ shape.inOrder := Shape.mem_inOrder_of_root top
  have new : entries.size ∉ shape.inOrder := fun h => Nat.lt_irrefl _ (inRange _ h)
  obtain ⟨after, updated, becomes⟩ := exists_setChild entries (some root) side none
    fun i h => Option.some.inj h ▸ inRange root inside
  obtain ⟨grown, hgrown⟩ : ∃ grown : Entries V,
      grown = after.push (hung key value side (shape.on side).root (some root)) := ⟨_, rfl⟩
  have size : grown.size = entries.size + 1 := by rw [hgrown, Array.size_push, becomes.size]
  have keyNew : keyAt grown entries.size = key := by
    rw [hgrown, ← becomes.size, keyAt_push_self]
    exact congrArg Prod.fst (binding_hung key value side _ _)
  have keyOld (i : Nat) (h : i ∈ shape.inOrder) : keyAt grown i = keyAt entries i := by
    rw [hgrown, keyAt_push_of_lt _ _ (by rw [becomes.size]; exact inRange i h), becomes.keyAt]
  have parted (s : Side) (x : Nat) (h : x ∈ (shape.on s).inOrder) : x ∈ shape.inOrder := by
    rw [Shape.exists_sided top s]
    exact (Shape.mem_inOrder_sided ..).mpr (.inl h)
  have wired := (links_iff.mp well.links).2.insertBeside side well.nodup top new
  rw [Shape.root_sided] at wired
  have links : Links grown (shape.insertBeside side entries.size) := by
    refine links_iff.mpr ⟨fun i h => ?_, ?_⟩
    · rw [size]
      rcases (Shape.mem_inOrder_insertBeside i).mp h with rfl | h
      · exact Nat.lt_succ_self _
      · exact Nat.lt_succ_of_lt (inRange i h)
    · rw [hgrown, childOf_push_hung value _ becomes]
      exact wired
  have kept : Ascending (keyAt grown) shape.inOrder :=
    well.keys_ascending.imp_of_mem fun hi hj less => by rwa [keyOld _ hi, keyOld _ hj]
  have ascending := kept.insertBeside top
    (by rw [keyNew, keyOld root inside]; exact heading)
    fun s x h => by rw [keyNew, keyOld x (parted s x h)]; exact cut s x h
  have full (i : Nat) (h : i < grown.size) :
      i ∈ (shape.insertBeside side entries.size).inOrder := by
    rw [size] at h
    rw [Shape.mem_inOrder_insertBeside]
    exact (Nat.lt_succ_iff_lt_or_eq.mp h).symm.imp_right (well.full i)
  have well' := WellFormedAs.of_links grown links ascending
    (Shape.nodup_insertBeside well.nodup new) full
  rw [Shape.root_insertBeside, hgrown] at well'
  exact ⟨after, updated, becomes.pairs_eq, well'⟩

theorem wellFormedAs_single (key : Nat) (value : V) :
    WellFormedAs ⟨#[{ key := key, value := value }], some 0⟩ (.node .empty 0 .empty) := by
  have links : Links #[({ key := key, value := value } : Entry V)] (.node .empty 0 .empty) :=
    ⟨_, rfl, rfl, rfl, trivial, trivial⟩
  refine WellFormedAs.of_links _ links ?_ ?_ fun index h => ?_
  · exact List.pairwise_singleton _ _
  · exact List.pairwise_singleton _ _
  · obtain rfl : index = 0 := by simpa using h
    exact List.mem_singleton.mpr rfl

/-! The three ways an insertion can go once the key was splayed for. -/

section insert
variable {entries updated : Entries V} {root : Nat} {here : Entry V} {key : Nat}

theorem insert_of_empty (splayed : map.splayRoot key = .ok (⟨entries, none⟩, none)) (value : V) :
    map.insert key value =
      .ok (⟨entries.push { key := key, value := value }, some (place map.size)⟩, true) := by
  rw [KeyMap.insert, splayed]
  rfl

theorem insert_of_present (splayed : map.splayRoot key = .ok (⟨entries, some root⟩, some root))
    (found : entries[root]? = some here) (same : here.key = key) (value : V) :
    map.insert key value = .ok (⟨entries, some root⟩, false) := by
  rw [KeyMap.insert, splayed, ok_bind]
  dsimp only
  rw [entry_eq_ok.mpr found, ok_bind, sideOf_eq_none.mpr same]
  rfl

theorem insert_of_absent {side : Side}
    (splayed : map.splayRoot key = .ok (⟨entries, some root⟩, some root))
    (found : entries[root]? = some here) (heading : sideOf key here.key = some side)
    (turned : update entries root (·.withChild side none) = .ok updated) (value : V) :
    map.insert key value = .ok (⟨updated.push (hung key value side (here.child side) (some root)),
      some (place map.size)⟩, true) := by
  rw [KeyMap.insert, splayed, ok_bind]
  dsimp only
  rw [entry_eq_ok.mpr found, ok_bind, heading]
  dsimp only
  rw [turned]
  rfl

end insert

theorem WellFormedAs.eq_empty {entries : Entries V} (well : WellFormedAs ⟨entries, none⟩ shape) :
    entries = #[] := by
  have nothing := well.full
  rw [Shape.root_eq_none.mp well.root_eq.symm] at nothing
  exact Array.eq_empty_of_size_eq_zero (Nat.eq_zero_of_not_pos fun h => by cases nothing 0 h)

/-- After a splay for a key that is there, no other key is at the root. -/
theorem WellFormedAs.missing {entries : Entries V} {root key : Nat} {here : Entry V} {side : Side}
    (well : map.WellFormedAs shape) (same : pairs entries = pairs map.entries)
    (top : (shape.seek (keyAt map.entries) key).root = some root)
    (found : entries[root]? = some here) (heading : sideOf key here.key = some side) (old : V) :
    (key, old) ∉ pairs map.entries := by
  intro inside
  obtain ⟨index, h⟩ := Array.mem_iff_getElem?.mp inside
  have seeked := Shape.root_seek_of_mem well.keys_ascending (well.full index (lt_size_of_pairs h))
  rw [keyAt_of_pairs h, top, Option.some.injEq] at seeked
  rw [← same, ← seeked, pairs_found found, Entry.binding, Option.some.injEq, Prod.mk.injEq] at h
  rw [sideOf_eq_none.mpr h.1] at heading
  cases heading

/-- A key that is there already is left alone, and a new one comes to the end of the bindings. Only
for the links to hold together there must be room for a new key. -/
theorem WellFormedAs.exists_insert (well : map.WellFormedAs shape) (key : Nat) (value : V) :
    ∃ after added, map.insert key value = .ok (after, added) ∧
      Adds key value (pairs map.entries) (pairs after.entries) added ∧
      (added = true → after.root = some (place map.size)) ∧
      (map.size < NodeId.limit ∨ added = false → after.WellFormed) := by
  obtain ⟨⟨entries, top⟩, splayed, well', same⟩ := well.splayRoot key
  have count : entries.size = map.size := size_congr same
  cases top with
  | none =>
    obtain rfl := well'.eq_empty
    have first : place map.size = 0 := by
      rw [← count]
      rfl
    refine ⟨_, true, insert_of_empty splayed value, .absent ?_ ?_, fun _ => rfl, fun _ => ?_⟩
    · intro old inside
      rw [← same] at inside
      simp [pairs] at inside
    · rw [pairs_push, same]
      rfl
    · rw [first]
      exact ⟨_, wellFormedAs_single key value⟩
  | some root =>
    have root_eq := well'.root_eq.symm
    obtain ⟨here, found⟩ := exists_found (well'.inRange root (Shape.mem_inOrder_of_root root_eq))
    cases heading : sideOf key here.key with
    | none =>
      have equal : here.key = key := sideOf_eq_none.mp heading
      have present : (key, here.value) ∈ pairs map.entries := by
        rw [Array.mem_iff_getElem?, ← same]
        exact ⟨root, by rw [pairs_found found, Entry.binding, equal]⟩
      exact ⟨_, false, insert_of_present splayed found equal value, .present present same,
        fun fresh => absurd fresh Bool.false_ne_true, fun _ => ⟨_, well'⟩⟩
    | some side =>
      obtain ⟨after, turned, kept, well''⟩ := well'.hang value
        (by rw [keyAt_found found]; exact heading)
        fun s x h => by rw [keyAt_congr same]; exact Shape.seek_cut well.keys_ascending key s x h
      refine ⟨_, true, insert_of_absent splayed found heading turned value,
        .absent (well.missing same root_eq found heading) ?_, fun _ => rfl, ?_⟩
      · rw [pairs_push, kept, same, binding_hung]
      · rintro (space | ⟨⟨⟩⟩)
        have numbered : place map.size = entries.size := by
          rw [count, place, Nat.mod_eq_of_lt (by simpa [NodeId.limit] using space)]
        rw [well'.child_root root_eq found, numbered]
        exact ⟨_, well''⟩

/-- A key that is there already is left alone; a new one, for which there is room, becomes the
root. -/
theorem WellFormedAs.insert (well : map.WellFormedAs shape) (key : Nat) (value : V)
    (room : map.size < NodeId.limit ∨ ∃ old, (key, old) ∈ pairs map.entries) :
    ∃ after added, map.insert key value = .ok (after, added) ∧ after.WellFormed ∧
      Adds key value (pairs map.entries) (pairs after.entries) added ∧
      (added = true → after.root = some (place map.size)) := by
  obtain ⟨after, added, h, adds, top, well'⟩ := well.exists_insert key value
  refine ⟨after, added, h, well' (room.imp_right ?_), adds, top⟩
  rintro ⟨old, inside⟩
  cases adds with
  | present here same => rfl
  | absent missing grown => exact absurd inside (missing old)

end KeyMap
end PieceIndex
