import Kronos.Proofs.Scan
import Kronos.Proofs.SkipInsert
import Kronos.Spec.SortedMap

/-!
# A memtable is a sorted map

The events of the nodes along level 0 are the list that `MemTable` keeps, and
both classes insert alike. So what holds of the list holds of the skip list,
and a walk along the pointers is a walk along the list.
-/

namespace Kronos

open Spec SkipList

/-! ## Walks -/

def entry (e : Event) : Key × Event := (e.key, e)

section
variable {sl : SkipList Key Event} {base : List Addr} {lv : Addr → Nat}

/-- The next node of a walk and its event. -/
theorem walk_step (h : Rep sl base lv) {pre suf : List Addr} {a : Addr}
    (hbase : base = pre ++ a :: suf) {events : List Event}
    (hevents : sl.contents (a :: suf) = events.map entry) :
    ∃ e es, events = e :: es ∧ sl.value a = some e ∧ sl.key a = e.key ∧
      sl.contents suf = es.map entry ∧ sl.next a = suf.head? := by
  obtain ⟨v, hv⟩ := Option.isSome_iff_exists.mp
    (h.vals a (hbase ▸ List.mem_append_right _ List.mem_cons_self))
  rw [contents_cons sl hv] at hevents
  cases events with
  | nil => cases hevents
  | cons e es =>
      obtain ⟨hhead, htail⟩ := List.cons.inj hevents
      obtain ⟨hkey, rfl⟩ := Prod.mk.inj hhead
      exact ⟨v, es, rfl, hv, hkey, htail, h.next_behind hbase⟩

theorem collect_eq (h : Rep sl base lv) {pre suf : List Addr} (hbase : base = pre ++ suf)
    {events : List Event} (hevents : sl.contents suf = events.map entry) {fuel : Nat}
    (hfuel : suf.length ≤ fuel) : LinkedMemTable.collect sl fuel suf.head? = some events := by
  induction suf generalizing pre events fuel with
  | nil =>
      cases events with
      | nil => cases fuel <;> rfl
      | cons e es => cases hevents
  | cons a suf ih =>
      obtain ⟨e, es, rfl, hv, -, hrest, hnext⟩ := walk_step h hbase hevents
      cases fuel with
      | zero => cases hfuel
      | succ fuel =>
          have hsplit : base = (pre ++ [a]) ++ suf := by rw [hbase, List.append_assoc]; rfl
          have hgo := ih hsplit hrest (Nat.le_of_succ_le_succ hfuel)
          simp [LinkedMemTable.collect, hv, hnext, hgo]

/-- Both loops of `scan` stop at the same event. -/
theorem linked_scan_from (h : Rep sl base lv) {σ : Type} (cb : Callback σ) (end_ : Key)
    {pre suf : List Addr} (hbase : base = pre ++ suf) {events : List Event}
    (hevents : sl.contents suf = events.map entry) {fuel : Nat} (hfuel : suf.length ≤ fuel)
    (s : σ) : LinkedMemTable.scan_from sl end_ cb fuel s suf.head? =
      some (MemTable.scan_from end_ cb s events) := by
  induction suf generalizing pre events fuel s with
  | nil =>
      cases events with
      | nil => cases fuel <;> rfl
      | cons e es => cases hevents
  | cons a suf ih =>
      obtain ⟨e, es, rfl, hv, hkey, hrest, hnext⟩ := walk_step h hbase hevents
      cases fuel with
      | zero => cases hfuel
      | succ fuel =>
          have hsplit : base = (pre ++ [a]) ++ suf := by rw [hbase, List.append_assoc]; rfl
          have hgo := fun s' => ih hsplit hrest (Nat.le_of_succ_le_succ hfuel) s'
          rw [List.head?_cons, LinkedMemTable.scan_from, MemTable.scan_from, hkey]
          by_cases hend : e.key > end_
          · rw [if_pos hend, if_pos hend]
          · rw [if_neg hend, if_neg hend, hv]
            rcases hcb : cb s e with ⟨s', go⟩
            cases go with
            | true =>
                rw [hnext]
                simp only [Option.bind_eq_bind, Option.bind_some, hcb]
                exact hgo s'
            | false => simp [hcb]

theorem contents_filter (h : Rep sl base lv) (k : Key) :
    sl.contents (base.filter (k ≤ sl.key ·)) = (sl.contents base).filter (k ≤ ·.1) := by
  have hvals := h.vals
  clear h
  induction base with
  | nil => rfl
  | cons a base ih =>
      obtain ⟨v, hv⟩ := Option.isSome_iff_exists.mp (hvals a List.mem_cons_self)
      have ih := ih fun b hb => hvals b (List.mem_cons_of_mem _ hb)
      by_cases hk : k ≤ sl.key a
      · rw [List.filter_cons_of_pos (by simpa using hk), contents_cons sl hv,
          contents_cons sl hv, List.filter_cons_of_pos (by simpa using hk), ih]
      · rw [List.filter_cons_of_neg (by simpa using hk), contents_cons sl hv,
          List.filter_cons_of_neg (by simpa using hk), ih]

end

/-! ## The memtable and its list -/

/-- The skip list holds the events of `nodes`. -/
def Stores (m : LinkedMemTable) (nodes : List Event) : Prop := IsMap m.sl (nodes.map entry)

variable {m : LinkedMemTable} {nodes : List Event}

theorem Stores.sorted (h : Stores m nodes) : Keyed.Sorted Event.key nodes :=
  (List.pairwise_map (f := entry)).mp (IsMap.sorted h)

theorem Stores.insert (h : Stores m nodes) (e : Event) (height : Fin kMaxHeight) :
    ∃ m', m.insert e height = some m' ∧ Stores m' (Keyed.upsert Event.key e nodes) ∧
      m'.has_entries = true ∧
      m'.first_key = (if m.has_entries ∧ ¬ e.key < m.first_key then m.first_key else e.key) ∧
      m'.last_key = (if m.has_entries ∧ ¬ m.last_key < e.key then m.last_key else e.key) := by
  obtain ⟨sl, hsl, hholds⟩ := IsMap.insert h e.key e height
  have hmap : Keyed.upsert Prod.fst (e.key, e) (nodes.map entry) =
      (Keyed.upsert Event.key e nodes).map entry :=
    Keyed.upsert_map (f := entry) (fun _ => rfl) e nodes
  rw [hmap] at hholds
  rw [LinkedMemTable.insert, hsl]
  cases hentries : m.has_entries with
  | false =>
      refine ⟨_, rfl, hholds, rfl, ?_, ?_⟩
      · simp
      · simp
  | true =>
      refine ⟨_, rfl, hholds, rfl, ?_, ?_⟩
      · by_cases hlt : e.key < m.first_key <;> simp [hlt]
      · by_cases hlt : m.last_key < e.key <;> simp [hlt]

theorem Stores.to_sorted_events (h : Stores m nodes) : m.to_sorted_events = some nodes := by
  obtain ⟨base, hrep, -, hnodes⟩ := h
  have hfuel : base.length ≤ m.sl.fuel := by
    have hlen := hrep.length_lt
    rw [fuel]
    omega
  have hbase : base = [] ++ base := rfl
  rw [LinkedMemTable.to_sorted_events, hrep.first_eq]
  exact collect_eq hrep hbase hnodes.symm hfuel

theorem Stores.scan (h : Stores m nodes) {σ : Type} (cb : Callback σ) (s : σ) (start end_ : Key) :
    m.scan start end_ cb s = some (feed cb s (nodes.filter (inRange start end_))).1 := by
  have hsorted := h.sorted
  obtain ⟨base, hrep, -, hnodes⟩ := h
  have hevents : m.sl.contents (base.filter (start ≤ m.sl.key ·)) =
      (nodes.filter (start ≤ ·.key)).map entry := by
    rw [contents_filter hrep, ← hnodes, List.filter_map]
    rfl
  have hfuel : (base.filter (start ≤ m.sl.key ·)).length ≤ m.sl.fuel := by
    have hlen := hrep.length_lt
    have hle := List.length_filter_le (start ≤ m.sl.key ·) base
    rw [fuel]
    omega
  let list : MemTable := ⟨0, {}, nodes⟩
  have hlist : Keyed.Sorted Event.key list.nodes := hsorted
  have hscan : list.scan start end_ cb s =
      (feed cb s (list.nodes.filter (inRange start end_))).1 := MemTable.scan_eq_feed cb hlist s
  rw [MemTable.scan, hsorted.dropWhile_eq] at hscan
  rw [LinkedMemTable.scan, seek, hrep.find_first_ge_eq, ← hscan]
  exact linked_scan_from hrep cb end_ (hrep.sorted.split start) hevents hfuel s

/-! ## Any number of inserts -/

/-- What the memtable keeps beside its list. -/
structure Filled (inserted : List Event) (m : LinkedMemTable) : Prop where
  stores : Stores m (inserted.foldl (fun nodes e => Keyed.upsert Event.key e nodes) [])
  entries : m.has_entries = true ↔ inserted ≠ []
  first : inserted ≠ [] → m.first_key ∈ inserted.map Event.key ∧
    ∀ e ∈ inserted, m.first_key ≤ e.key
  last : inserted ≠ [] → m.last_key ∈ inserted.map Event.key ∧
    ∀ e ∈ inserted, e.key ≤ m.last_key

theorem filled_new : Filled [] {} :=
  ⟨isMap_new, by simp, fun h => absurd rfl h, fun h => absurd rfl h⟩

/-- A bound that bounds the new key as well. -/
theorem bound_keep {r : Key → Key → Prop} {inserted : List Event} {b : Key} {e : Event}
    (h : b ∈ inserted.map Event.key ∧ ∀ x ∈ inserted, r b x.key) (he : r b e.key) :
    b ∈ (inserted ++ [e]).map Event.key ∧ ∀ x ∈ inserted ++ [e], r b x.key := by
  refine ⟨by rw [List.map_append]; exact List.mem_append_left _ h.1, fun x hx => ?_⟩
  obtain hx | hx := List.mem_append.mp hx
  · exact h.2 x hx
  · rw [List.mem_singleton.mp hx]
    exact he

/-- The new key as the bound. -/
theorem bound_new {r : Key → Key → Prop} {inserted : List Event} {e : Event} (hrefl : r e.key e.key)
    (h : ∀ x ∈ inserted, r e.key x.key) :
    e.key ∈ (inserted ++ [e]).map Event.key ∧ ∀ x ∈ inserted ++ [e], r e.key x.key := by
  refine ⟨by simp, fun x hx => ?_⟩
  obtain hx | hx := List.mem_append.mp hx
  · exact h x hx
  · rw [List.mem_singleton.mp hx]
    exact hrefl

theorem Filled.insert {inserted : List Event} {m : LinkedMemTable} (h : Filled inserted m)
    (e : Event) (height : Fin kMaxHeight) :
    ∃ m', m.insert e height = some m' ∧ Filled (inserted ++ [e]) m' := by
  obtain ⟨m', hm', hstores, hentries, hfirst, hlast⟩ := h.stores.insert e height
  have hne : inserted ++ [e] ≠ [] := by simp
  refine ⟨m', hm', ?_, iff_of_true hentries hne, fun _ => ?_, fun _ => ?_⟩
  · rw [List.foldl_append]
    exact hstores
  · rw [hfirst]
    split
    · next hold => exact bound_keep (h.first (h.entries.mp hold.1)) (not_lt.mp hold.2)
    · next hnew =>
        refine bound_new (le_refl _) fun x hx => ?_
        have hsome := h.entries.mpr (List.ne_nil_of_mem hx)
        have hlt : e.key < m.first_key := not_not.mp fun hge => hnew ⟨hsome, hge⟩
        exact hlt.le.trans ((h.first (List.ne_nil_of_mem hx)).2 x hx)
  · rw [hlast]
    split
    · next hold =>
        exact bound_keep (r := (· ≥ ·)) (h.last (h.entries.mp hold.1)) (not_lt.mp hold.2)
    · next hnew =>
        refine bound_new (r := (· ≥ ·)) (le_refl _) fun x hx => ?_
        have hsome := h.entries.mpr (List.ne_nil_of_mem hx)
        have hlt : m.last_key < e.key := not_not.mp fun hge => hnew ⟨hsome, hge⟩
        exact ((h.last (List.ne_nil_of_mem hx)).2 x hx).trans hlt.le

theorem filled_filled (inserts : List (Event × Fin kMaxHeight)) :
    ∃ m, filled inserts = some m ∧ Filled (inserts.map Prod.fst) m := by
  induction inserts using List.reverseRecOn with
  | nil => exact ⟨_, rfl, filled_new⟩
  | append_singleton inserts p ih =>
      obtain ⟨m, hm, hfilled⟩ := ih
      obtain ⟨m', hm', hfilled'⟩ := hfilled.insert p.1 p.2
      refine ⟨m', ?_, ?_⟩
      · rw [filled] at hm ⊢
        rw [List.foldlM_append, hm]
        simp [hm']
      · rw [List.map_append]
        exact hfilled'

/-- The list of the model of memtables is the one the skip list holds. -/
theorem filled_nodes (flush_threshold_bytes : Nat) (inserts : List (Event × Fin kMaxHeight)) :
    (inserts.foldl (fun m p => m.insert p.1 p.2) (MemTable.new flush_threshold_bytes)).nodes =
      (inserts.map Prod.fst).foldl (fun nodes e => Keyed.upsert Event.key e nodes) [] := by
  have hgen : ∀ m : MemTable, (inserts.foldl (fun m p => m.insert p.1 p.2) m).nodes =
      (inserts.map Prod.fst).foldl (fun nodes e => Keyed.upsert Event.key e nodes) m.nodes := by
    induction inserts with
    | nil => exact fun _ => rfl
    | cons p inserts ih => exact fun m => ih (m.insert p.1 p.2)
  exact hgen _

/-! ## The map -/

theorem mem_nodes_iff (inserted : List Event) (e : Event) :
    e ∈ inserted.foldl (fun nodes e => Keyed.upsert Event.key e nodes) [] ↔
      lastInserted inserted e.key = some e := by
  have hsorted : Keyed.Sorted Event.key
      (inserted.foldl (fun nodes e => Keyed.upsert Event.key e nodes) []) := by
    induction inserted using List.reverseRecOn with
    | nil => exact List.Pairwise.nil
    | append_singleton l a ih =>
        rw [List.foldl_append]
        exact Keyed.upsert_sorted a ih
  rw [hsorted.mem_iff_find, Keyed.find_foldl_upsert _ List.Pairwise.nil, lastInserted]
  simp

theorem lastInserted_some (inserted : List Event) (k : Key) :
    (∃ e, lastInserted inserted k = some e ∧ e.key = k) ↔ k ∈ inserted.map Event.key := by
  constructor
  · rintro ⟨e, he, rfl⟩
    exact List.mem_map_of_mem (List.mem_filter.mp (List.mem_of_getLast? he)).1
  · intro hk
    obtain ⟨x, hx, rfl⟩ := List.mem_map.mp hk
    have hmem : x ∈ inserted.filter (·.key = x.key) :=
      List.mem_filter.mpr ⟨hx, decide_eq_true rfl⟩
    obtain ⟨e, he⟩ : ∃ e, lastInserted inserted x.key = some e := by
      rw [lastInserted]
      exact Option.isSome_iff_exists.mp
        (List.getLast?_isSome.mpr (List.ne_nil_of_mem hmem))
    exact ⟨e, he, of_decide_eq_true (List.mem_filter.mp (List.mem_of_getLast? he)).2⟩

theorem Filled.sortedMap {inserted : List Event} {m : LinkedMemTable} (h : Filled inserted m) :
    SortedMap inserted m := by
  have hsorted := h.stores.sorted
  have hkeys : ∀ k, k ∈ (inserted.foldl (fun nodes e => Keyed.upsert Event.key e nodes) []).map
      Event.key ↔ k ∈ inserted.map Event.key := by
    intro k
    refine Iff.trans ?_ (lastInserted_some inserted k)
    constructor
    · intro hk
      obtain ⟨e, he, rfl⟩ := List.mem_map.mp hk
      exact ⟨e, (mem_nodes_iff inserted e).mp he, rfl⟩
    · rintro ⟨e, he, rfl⟩
      exact List.mem_map_of_mem ((mem_nodes_iff inserted e).mpr he)
  refine ⟨⟨_, h.stores.to_sorted_events, hsorted, mem_nodes_iff inserted, fun σ cb s start end_ =>
    h.stores.scan cb s start end_⟩, ?_, fun hne => ?_, fun hne => ?_, fun k => ?_⟩
  · have hnodup := (List.pairwise_map.mpr hsorted).imp (S := (· ≠ ·)) fun hlt => ne_of_lt hlt
    have hperm := (List.perm_ext_iff_of_nodup hnodup (List.nodup_dedup _)).mpr fun k =>
      (hkeys k).trans List.mem_dedup.symm
    rw [← hperm.length_eq, List.length_map, LinkedMemTable.count, IsMap.count_eq h.stores,
      List.length_map]
  · rw [LinkedMemTable.min_key, if_pos (h.entries.mpr hne)]
    exact h.first hne
  · rw [LinkedMemTable.max_key, if_pos (h.entries.mpr hne)]
    exact h.last hne
  · obtain ⟨b, hb, hiff⟩ := IsMap.contains_eq h.stores k
    rw [hb]
    congr 1
    rw [Bool.eq_iff_iff, hiff, decide_eq_true_eq, ← hkeys, List.map_map]
    rfl

/-- Inserting ends, and after any inserts, with nodes of any heights, the memtable
is the map they make. -/
theorem filled_sorted_map (inserts : List (Event × Fin kMaxHeight)) :
    ∃ m, filled inserts = some m ∧ SortedMap (inserts.map Prod.fst) m := by
  obtain ⟨m, hm, hfilled⟩ := filled_filled inserts
  exact ⟨m, hm, hfilled.sortedMap⟩

example : (filled [({ timestamp_ns := 5 }, 3), ({ timestamp_ns := 2 }, 0),
    ({ timestamp_ns := 5, order_id := 7 }, 2)]).bind LinkedMemTable.to_sorted_events =
      some [{ timestamp_ns := 2 }, { timestamp_ns := 5, order_id := 7 }] := rfl

end Kronos
