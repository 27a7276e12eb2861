import Kronos.Lib.Fitting
import Kronos.Lib.Run
import Kronos.Lib.Slots
import Kronos.Ref.BlockCache

/-!
# Pointers into the block cache

`get` answers a pointer and lets go of the lock, and the caller reads through
the pointer later. Between the two another call's `put` can replace the entry
or evict it. The list after a `put` is the new entry and the others' longest
prefix that fits, so whether an entry stays is told by its key and by what
stands in front of it.
-/

namespace Kronos

open Fitting

namespace BlockCache

abbrev Entry.size (e : Entry) : Nat := e.data.length

/-- The index and the total are those of the list, and no two entries share a
node. -/
structure Coherent (c : BlockCache) : Prop where
  index : ∀ key node, c.index.lookup key = some node ↔ ∃ e ∈ c.lru, e.key = key ∧ e.node = node
  nodes : (c.lru.map Entry.node).Nodup
  fresh : ∀ e ∈ c.lru, e.node < c.next_node
  bytes : c.cur_bytes = total Entry.size c.lru

variable {c : BlockCache}

theorem coherent_new (max_bytes : Nat) : Coherent { max_bytes } :=
  ⟨fun _ _ => ⟨nofun, nofun⟩, List.nodup_nil, nofun, rfl⟩

/-- No two entries have the same key either. -/
theorem Coherent.keys (h : Coherent c) {e f : Entry} (he : e ∈ c.lru) (hf : f ∈ c.lru)
    (hkey : e.key = f.key) : e = f := by
  have hnode := (h.index e.key e.node).mpr ⟨e, he, rfl, rfl⟩
  rw [hkey, (h.index f.key f.node).mpr ⟨f, hf, rfl, rfl⟩] at hnode
  exact List.inj_on_of_nodup_map h.nodes he hf (Option.some.inj hnode).symm

theorem node?_of_mem {lru : List Entry} (h : (lru.map Entry.node).Nodup) {e : Entry}
    (he : e ∈ lru) : node? e.node lru = some e := by
  cases hfind : node? e.node lru with
  | none =>
      have hno := List.find?_eq_none.mp hfind e he
      exact absurd (decide_eq_true rfl) hno
  | some f =>
      rw [node?] at hfind
      have hnode : f.node = e.node := by simpa using List.find?_some hfind
      rw [List.inj_on_of_nodup_map h (List.mem_of_find?_eq_some hfind) he hnode]

/-! ## `get` -/

theorem to_front_perm {lru : List Entry} (h : (lru.map Entry.node).Nodup) {e : Entry}
    (he : e ∈ lru) : (to_front e.node lru).Perm lru := by
  rw [to_front, node?_of_mem h he, Option.toList_some]
  have herase : erase_node e.node lru = lru.erase e := by
    rw [h.of_map.erase_eq_filter]
    refine List.filter_congr fun f hf => ?_
    by_cases hfe : f = e
    · rw [hfe]
      simp
    · have hne : f.node ≠ e.node := fun heq => hfe (List.inj_on_of_nodup_map h hf he heq)
      simp [hne, hfe]
  rw [herase]
  exact (List.perm_cons_erase he).symm

theorem Coherent.perm (h : Coherent c) {lru : List Entry} (hp : lru.Perm c.lru) :
    Coherent { c with lru } where
  index key node := by rw [h.index]; simp only [hp.mem_iff]
  nodes := (hp.map _).nodup_iff.mpr h.nodes
  fresh e he := h.fresh e (hp.mem_iff.mp he)
  bytes := by rw [h.bytes]; exact (hp.map _).sum_nat.symm

/-- `get` moves an entry to the front and changes nothing else. -/
theorem get_spec (h : Coherent c) (key : BlockKey) :
    Coherent (c.get key).2 ∧ (∀ e, e ∈ (c.get key).2.lru ↔ e ∈ c.lru) ∧
      (c.get key).2.max_bytes = c.max_bytes ∧
      ∀ node ∈ (c.get key).1, ∃ e ∈ c.lru, e.key = key ∧ e.node = node := by
  rw [get]
  cases hlook : c.index.lookup key with
  | none => exact ⟨h, fun _ => Iff.rfl, rfl, nofun⟩
  | some node =>
      obtain ⟨e, he, hkey, rfl⟩ := (h.index key node).mp hlook
      have hp := to_front_perm h.nodes he
      refine ⟨h.perm hp, fun _ => hp.mem_iff, rfl, fun node hnode => ?_⟩
      exact ⟨e, he, hkey, Option.some.inj hnode⟩

/-! ## `put` -/

theorem erase_node_eq (h : Coherent c) {e : Entry} (he : e ∈ c.lru) :
    erase_node e.node c.lru = c.lru.filter (·.key ≠ e.key) :=
  List.filter_congr fun f hf => by
    have hiff : f.node = e.node ↔ f.key = e.key :=
      ⟨fun hn => by rw [List.inj_on_of_nodup_map h.nodes hf he hn],
        fun hk => by rw [h.keys hf he hk]⟩
    simp only [ne_eq, hiff]

theorem total_filter_key (h : Coherent c) {e : Entry} (he : e ∈ c.lru) :
    total Entry.size (c.lru.filter (·.key ≠ e.key)) + e.size = total Entry.size c.lru := by
  have hperm : c.lru.Perm (e :: c.lru.filter (·.key ≠ e.key)) := by
    have hfront := to_front_perm h.nodes he
    rw [to_front, node?_of_mem h.nodes he, erase_node_eq h he] at hfront
    exact hfront.symm
  rw [total, total, (hperm.map _).sum_nat, List.map_cons, List.sum_cons, Nat.add_comm]

theorem drop_key_spec (h : Coherent c) (key : BlockKey) :
    Coherent (c.drop_key key) ∧ (c.drop_key key).lru = c.lru.filter (·.key ≠ key) ∧
      (c.drop_key key).max_bytes = c.max_bytes ∧ (c.drop_key key).next_node = c.next_node := by
  rw [drop_key]
  cases hlook : c.index.lookup key with
  | none =>
      refine ⟨h, (List.filter_eq_self.mpr fun e he => ?_).symm, rfl, rfl⟩
      refine decide_eq_true fun hkey => ?_
      rw [(h.index key e.node).mpr ⟨e, he, hkey, rfl⟩] at hlook
      cases hlook
  | some node =>
      obtain ⟨e, he, rfl, rfl⟩ := (h.index key node).mp hlook
      have hlru := erase_node_eq h he
      refine ⟨⟨fun k n => ?_, ?_, fun f hf => ?_, ?_⟩, hlru, rfl, rfl⟩
      · change (c.index.erase e.key).lookup k = some n ↔ ∃ f ∈ erase_node e.node c.lru, _
        rw [hlru]
        by_cases hk : k = e.key
        · subst hk
          rw [AList.lookup_erase]
          refine ⟨nofun, ?_⟩
          rintro ⟨f, hf, hkey, -⟩
          exact absurd hkey (of_decide_eq_true (List.mem_filter.mp hf).2)
        · rw [AList.lookup_erase_ne hk, h.index]
          constructor
          · rintro ⟨f, hf, rfl, hn⟩
            exact ⟨f, List.mem_filter.mpr ⟨hf, decide_eq_true hk⟩, rfl, hn⟩
          · rintro ⟨f, hf, hkey, hn⟩
            exact ⟨f, (List.mem_filter.mp hf).1, hkey, hn⟩
      · exact h.nodes.sublist ((List.filter_sublist (l := c.lru)).map _)
      · exact h.fresh f (List.mem_filter.mp hf).1
      · have htotal := total_filter_key h he
        have hsize : ((node? e.node c.lru).map (·.data.length)).getD 0 = e.size := by
          rw [node?_of_mem h.nodes he]
          rfl
        change c.cur_bytes - ((node? e.node c.lru).map (·.data.length)).getD 0 =
          total Entry.size (erase_node e.node c.lru)
        rw [hsize, hlru, h.bytes]
        omega

theorem coherent_push_front (h : Coherent c) {key : BlockKey} (hkey : ∀ e ∈ c.lru, e.key ≠ key)
    (data : Bytes) : Coherent (c.push_front key data) := by
  refine ⟨fun k n => ?_, ?_, fun e he => ?_, ?_⟩
  · change (c.index.insert key c.next_node).lookup k = some n ↔
      ∃ e ∈ (⟨c.next_node, key, data⟩ : Entry) :: c.lru, e.key = k ∧ e.node = n
    rw [List.exists_mem_cons_iff]
    by_cases hk : k = key
    · subst hk
      rw [AList.lookup_insert, Option.some_inj]
      refine ⟨fun hn => .inl ⟨rfl, hn⟩, ?_⟩
      rintro (⟨-, hn⟩ | ⟨e, he, hek, -⟩)
      · exact hn
      · exact absurd hek (hkey e he)
    · rw [AList.lookup_insert_ne hk, h.index]
      refine ⟨.inr, ?_⟩
      rintro (⟨hkk, -⟩ | hold)
      · exact absurd hkk.symm hk
      · exact hold
  · refine List.nodup_cons.mpr ⟨fun hin => ?_, h.nodes⟩
    obtain ⟨e, he, hnode⟩ := List.mem_map.mp hin
    exact absurd hnode (h.fresh e he).ne
  · rcases List.mem_cons.mp he with rfl | he
    · exact Nat.lt_succ_self _
    · exact Nat.lt_succ_of_lt (h.fresh e he)
  · change c.cur_bytes + data.length =
      total Entry.size ((⟨c.next_node, key, data⟩ : Entry) :: c.lru)
    rw [h.bytes, Nat.add_comm]
    rfl

theorem coherent_evict_lru (h : Coherent c) : Coherent c.evict_lru ∧
    c.evict_lru.lru = c.lru.dropLast ∧ c.evict_lru.max_bytes = c.max_bytes ∧
      c.evict_lru.next_node = c.next_node := by
  rcases List.eq_nil_or_concat' c.lru with hnil | ⟨front, back, hback⟩
  · have hself : c.evict_lru = c := by
      rw [evict_lru, hnil]
      rfl
    rw [hself, hnil]
    exact ⟨h, rfl, rfl, rfl⟩
  · have hmem : back ∈ c.lru := by rw [hback]; exact List.mem_append_right _ List.mem_cons_self
    have hevict : c.evict_lru = { c with
        cur_bytes := c.cur_bytes - back.size
        index := c.index.erase back.key
        lru := front } := by
      rw [evict_lru, hback, List.getLast?_concat, List.dropLast_concat]
    have hfront : ∀ e ∈ front, e ∈ c.lru ∧ e.key ≠ back.key := fun e he => by
      have hin : e ∈ c.lru := hback ▸ List.mem_append_left _ he
      refine ⟨hin, fun hkey => ?_⟩
      have hnodes := h.nodes.of_map
      rw [hback] at hnodes
      exact List.disjoint_of_nodup_append hnodes he
        (h.keys hin hmem hkey ▸ List.mem_cons_self)
    rw [hevict]
    refine ⟨⟨fun k n => ?_, ?_, fun e he => h.fresh e (hfront e he).1, ?_⟩, ?_, rfl, rfl⟩
    · change (c.index.erase back.key).lookup k = some n ↔ ∃ e ∈ front, e.key = k ∧ e.node = n
      by_cases hk : k = back.key
      · subst hk
        rw [AList.lookup_erase]
        refine ⟨nofun, ?_⟩
        rintro ⟨e, he, hkey, -⟩
        exact absurd hkey (hfront e he).2
      · rw [AList.lookup_erase_ne hk, h.index]
        constructor
        · rintro ⟨e, he, rfl, hn⟩
          rw [hback] at he
          rcases List.mem_append.mp he with he | he
          · exact ⟨e, he, rfl, hn⟩
          · rw [List.mem_singleton.mp he] at hk
            exact absurd rfl hk
        · rintro ⟨e, he, hkey, hn⟩
          exact ⟨e, (hfront e he).1, hkey, hn⟩
    · have hnodes := h.nodes
      rw [hback, List.map_append] at hnodes
      exact hnodes.of_append_left
    · change c.cur_bytes - back.size = total Entry.size front
      rw [h.bytes, hback, total, List.map_append, List.sum_append, List.map_singleton,
        List.sum_singleton, Nat.add_sub_cancel]
    · rw [hback, List.dropLast_concat]

/-- The loop of `put` leaves the longest prefix that fits. -/
theorem evict_while_spec (n : Nat) {c : BlockCache} (h : Coherent c) (hn : c.lru.length ≤ n) :
    Coherent (c.evict_while n) ∧ (c.evict_while n).lru = fit Entry.size c.max_bytes c.lru ∧
      (c.evict_while n).max_bytes = c.max_bytes ∧ (c.evict_while n).next_node = c.next_node := by
  induction n generalizing c with
  | zero =>
      have hnil := List.length_eq_zero_iff.mp (Nat.le_zero.mp hn)
      exact ⟨h, by rw [evict_while, hnil, fit], rfl, rfl⟩
  | succ n ih =>
      rw [evict_while]
      split
      · next hover =>
          obtain ⟨hevict, hlru, hmax, hnext⟩ := coherent_evict_lru h
          obtain ⟨hco, hfit, hmax', hnext'⟩ := ih hevict (by rw [hlru, List.length_dropLast]; omega)
          refine ⟨hco, ?_, hmax'.trans hmax, hnext'.trans hnext⟩
          rw [hfit, hlru, hmax]
          obtain ⟨front, back, hback⟩ := (List.eq_nil_or_concat' c.lru).resolve_left hover.2
          rw [hback, List.dropLast_concat]
          refine (fit_concat ?_).symm
          rw [← hback, ← h.bytes]
          exact hover.1
      · next hfits =>
          refine ⟨h, (fit_of_le ?_).symm, rfl, rfl⟩
          by_cases hnil : c.lru = []
          · rw [hnil]
            exact Nat.zero_le _
          · rw [← h.bytes]
            exact Nat.le_of_not_lt fun hlt => hfits ⟨hlt, hnil⟩

theorem put_spec (h : Coherent c) (key : BlockKey) (data : Bytes) :
    Coherent (c.put key data) ∧
      (c.put key data).lru = fit Entry.size c.max_bytes
        (⟨c.next_node, key, data⟩ :: c.lru.filter (·.key ≠ key)) ∧
      (c.put key data).max_bytes = c.max_bytes := by
  obtain ⟨hdrop, hlru, hmax, hnext⟩ := drop_key_spec h key
  have hpush := coherent_push_front hdrop (fun e he => by
    rw [hlru] at he
    exact of_decide_eq_true (List.mem_filter.mp he).2) data
  obtain ⟨hput, hfit, hmax', -⟩ := evict_while_spec _ hpush (Nat.le_refl _)
  refine ⟨hput, hfit.trans ?_, hmax'.trans hmax⟩
  rw [push_front, hlru, hmax, hnext]

/-- What a `put` has to leave in place for a pointer to stay good: the entry is
not replaced, and it fits with the new block and everything in front of it. -/
def Leaves (c : BlockCache) (key : BlockKey) (data : Bytes) (k : BlockKey) (node : Nat) : Prop :=
  k ≠ key ∧
    data.length + upTo Entry.size (·.node = node) (c.lru.filter (·.key ≠ key)) ≤ c.max_bytes

/-- The entry at a pointer is the same one before and after. -/
theorem put_same (h : Coherent c) {e f : Entry} (he : e ∈ c.lru) {key : BlockKey} {data : Bytes}
    (hf : f ∈ (c.put key data).lru) (hnode : f.node = e.node) : f = e := by
  rw [(put_spec h key data).2.1] at hf
  rcases List.mem_cons.mp ((fit_sublist _ _).subset hf) with rfl | hf
  · exact absurd hnode (h.fresh e he).ne'
  · exact List.inj_on_of_nodup_map h.nodes (List.mem_filter.mp hf).1 he hnode

theorem mem_put_iff (h : Coherent c) {e : Entry} (he : e ∈ c.lru) (key : BlockKey) (data : Bytes) :
    e ∈ (c.put key data).lru ↔ c.Leaves key data e.key e.node := by
  have hholds : e ∈ (c.put key data).lru ↔
      ∃ f ∈ (c.put key data).lru, decide (f.node = e.node) = true := by
    refine ⟨fun hin => ⟨e, hin, decide_eq_true rfl⟩, ?_⟩
    rintro ⟨f, hf, hnode⟩
    exact put_same h he hf (of_decide_eq_true hnode) ▸ hf
  have hnew : decide (c.next_node = e.node) = false := decide_eq_false (h.fresh e he).ne'
  rw [hholds, (put_spec h key data).2.1, exists_mem_fit, List.exists_mem_cons_iff, upTo, hnew,
    Leaves]
  simp only [Bool.false_eq_true, false_or, if_false]
  refine and_congr_left' ⟨?_, fun hkey => ?_⟩
  · rintro ⟨f, hf, hnode⟩ hkey
    have hfe := List.inj_on_of_nodup_map h.nodes (List.mem_filter.mp hf).1 he
      (of_decide_eq_true hnode)
    exact of_decide_eq_true (List.mem_filter.mp hf).2 (hfe ▸ hkey)
  · exact ⟨e, List.mem_filter.mpr ⟨he, decide_eq_true hkey⟩, decide_eq_true rfl⟩

end BlockCache

/-! ## Calls beside each other -/

namespace BlockReadings

/-- Whichever call decodes next finds the entry that its `get` found. -/
def Valid (s : BlockReadings) : Prop :=
  ∀ key node, .hit key node ∈ s.calls → ∃ e ∈ s.cache.lru, e.key = key ∧ e.node = node

/-- A `put` leaves every entry that a call still has to decode. -/
def Keeps (s : BlockReadings) : BlockStep → Prop
  | .get _ _ => True
  | .next i => ∀ key buf, s.calls[i]? = some (.missed key (some buf)) →
      ∀ k node, .hit k node ∈ s.calls → s.cache.Leaves key buf k node

variable {s : BlockReadings}

theorem get_valid (hc : s.cache.Coherent) (hv : Valid s) (key : BlockKey) (buf : Option Bytes) :
    (s.get key buf).cache.Coherent ∧ Valid (s.get key buf) := by
  obtain ⟨hco, hmem, -, hnode⟩ := BlockCache.get_spec hc key
  rw [get]
  rcases hget : s.cache.get key with ⟨_ | node, cache⟩
  · rw [hget] at hco hmem
    refine ⟨hco, fun k n hin => ?_⟩
    rcases List.mem_append.mp hin with hin | hin
    · obtain ⟨e, he, hkn⟩ := hv k n hin
      exact ⟨e, (hmem e).mpr he, hkn⟩
    · cases List.mem_singleton.mp hin
  · rw [hget] at hco hmem hnode
    refine ⟨hco, fun k n hin => ?_⟩
    rcases List.mem_append.mp hin with hin | hin
    · obtain ⟨e, he, hkn⟩ := hv k n hin
      exact ⟨e, (hmem e).mpr he, hkn⟩
    · cases List.mem_singleton.mp hin
      obtain ⟨e, he, hkn⟩ := hnode node rfl
      exact ⟨e, (hmem e).mpr he, hkn⟩

theorem next_coherent (hc : s.cache.Coherent) (i : Nat) : (s.next i).cache.Coherent := by
  rw [next]
  split
  · exact hc
  · next key buf _ => exact (BlockCache.put_spec hc key buf).1
  · exact hc
  · exact hc

/-- The step of one call: exactly a `put` that leaves the pointers alone is one. -/
theorem next_valid_iff (hc : s.cache.Coherent) (hv : Valid s) (i : Nat) :
    Keeps s (.next i) ↔ Valid (s.next i) := by
  rw [next]
  split
  · next key node hi =>
      refine iff_of_true (fun k buf hk => ?_) fun k n hin => hv k n ?_
      · rw [hi] at hk
        cases hk
      · exact Slots.mem_of_mem_set (fun h => by cases h) hin
  · next key buf hi =>
      constructor
      · intro hkeeps k n hin
        have hin := Slots.mem_of_mem_set (fun h => by cases h) hin
        obtain ⟨e, he, rfl, rfl⟩ := hv k n hin
        exact ⟨e, (BlockCache.mem_put_iff hc he key buf).mpr (hkeeps key buf hi _ _ hin), rfl, rfl⟩
      · intro hvalid k b hk m n hin
        rw [hi] at hk
        cases hk
        obtain ⟨e, he, rfl, rfl⟩ := hv m n hin
        obtain ⟨f, hf, -, hnode⟩ := hvalid _ _ (Slots.mem_set_of_mem hi (fun h => by cases h) hin)
        have hfe := BlockCache.put_same hc he hf hnode
        exact (BlockCache.mem_put_iff hc he key buf).mp (hfe ▸ hf)
  · next key hi =>
      refine iff_of_true (fun k buf hk => ?_) fun k n hin => hv k n ?_
      · rw [hi] at hk
        cases hk
      · exact Slots.mem_of_mem_set (fun h => by cases h) hin
  · next hno _ => exact iff_of_true (fun k buf hk => absurd hk (hno k buf)) hv

/-- From an empty cache on: every call finds its entry when it decodes, wherever
the run is stopped, exactly if no `put` replaces an entry that a call still has
to decode or needs its room. -/
theorem hits_stay_valid (max_bytes : Nat) (steps : List BlockStep) :
    Run.Along step Keeps { cache := { max_bytes } } steps ↔
      Run.Along step (fun s st => Valid (s.step st)) { cache := { max_bytes } } steps := by
  have hstart : ({ cache := { max_bytes } } : BlockReadings).cache.Coherent ∧
      Valid { cache := { max_bytes } } := ⟨BlockCache.coherent_new max_bytes, nofun⟩
  refine Run.along_iff (R := fun s t => s = t ∧ s.cache.Coherent ∧ Valid s) ?_ ?_ ⟨rfl, hstart⟩
  · rintro s _ (⟨key, buf⟩ | i) ⟨rfl, hc, hv⟩
    · exact iff_of_true trivial (get_valid hc hv key buf).2
    · exact next_valid_iff hc hv i
  · rintro s _ (⟨key, buf⟩ | i) ⟨rfl, hc, hv⟩ hk
    · exact ⟨rfl, get_valid hc hv key buf⟩
    · exact ⟨rfl, next_coherent hc i, (next_valid_iff hc hv i).mp hk⟩

/-- One call has hit and not decoded yet when another puts a block of its own,
and there is no room for both. -/
theorem hit_evicted : ¬ Run.Along step (fun s st => Valid (s.step st))
    { cache := { max_bytes := 1 } }
    [.get ⟨⟨0, .flushed 1⟩, 0⟩ (some [1]), .next 0, .get ⟨⟨0, .flushed 1⟩, 0⟩ none,
      .get ⟨⟨0, .flushed 1⟩, 1⟩ (some [2]), .next 2] := by
  intro h
  obtain ⟨e, he, hkey, -⟩ := h.2.2.2.2.1 ⟨⟨0, .flushed 1⟩, 0⟩ 0 (by decide)
  revert hkey
  revert e
  decide

end BlockReadings

end Kronos
