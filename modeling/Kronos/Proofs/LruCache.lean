import Kronos.Proofs.BlockCache
import Kronos.Spec.LruCache

/-!
# The block cache is the LRU map

The list is the map's, entry for entry; the index and the total are functions
of the list (`Coherent`), and every call commutes with forgetting them. A
subtraction takes off the size of an entry that is in the list at that moment,
so what the total says is at least as much.
-/

namespace Kronos.BlockCache

open Fitting Spec

variable {c : BlockCache}

theorem size_le_bytes (h : Coherent c) {e : Entry} (he : e ∈ c.lru) :
    e.data.length ≤ c.cur_bytes := by
  have htotal := total_filter_key h he
  rw [h.bytes, ← htotal]
  exact Nat.le_add_left ..

/-! ## `evict` -/

/-- The node of an entry that the loop of `evict` stands at. -/
theorem erase_node_at {kept rest : List Entry} {e : Entry}
    (h : ((kept ++ e :: rest).map Entry.node).Nodup) :
    erase_node e.node (kept ++ e :: rest) = kept ++ rest := by
  rw [List.map_append, List.map_cons, List.nodup_append] at h
  obtain ⟨-, hrest, hkept⟩ := h
  have hbefore : kept.filter (·.node ≠ e.node) = kept := by
    apply List.filter_eq_self.mpr
    intro f hf
    exact decide_eq_true (hkept _ (List.mem_map_of_mem hf) _ List.mem_cons_self)
  have hbehind : rest.filter (·.node ≠ e.node) = rest := by
    apply List.filter_eq_self.mpr
    intro f hf
    refine decide_eq_true fun heq => ?_
    exact (List.nodup_cons.mp hrest).1 (heq ▸ List.mem_map_of_mem hf)
  rw [erase_node, List.filter_append, List.filter_cons_of_neg (by simp), hbefore, hbehind]

theorem coherent_erase (h : Coherent c) {e : Entry} (he : e ∈ c.lru) :
    Coherent { c with
      cur_bytes := c.cur_bytes - e.data.length
      index := c.index.erase e.key
      lru := erase_node e.node c.lru } := by
  have hlook := (h.index e.key e.node).mpr ⟨e, he, rfl, rfl⟩
  have hdrop := (drop_key_spec h e.key).1
  rw [drop_key, hlook] at hdrop
  simpa [node?_of_mem h.nodes he] using hdrop

/-- The loop keeps the entries it has passed and, of the rest, those of other
paths; and what it subtracts is there. -/
theorem evict_from_spec (path : SSTablePath) (rest : List Entry) {c : BlockCache} (h : Coherent c)
    {kept : List Entry} (hlru : c.lru = kept ++ rest) :
    Coherent (c.evict_from path rest) ∧
      (c.evict_from path rest).lru = kept ++ rest.filter (·.key.path ≠ path) ∧
      (c.evict_from path rest).max_bytes = c.max_bytes ∧
      ∀ p ∈ c.erasures path rest, p.2 ≤ p.1 := by
  induction rest generalizing c kept with
  | nil => exact ⟨h, hlru, rfl, fun p hp => absurd hp List.not_mem_nil⟩
  | cons e rest ih =>
      have he : e ∈ c.lru := hlru ▸ List.mem_append_right _ List.mem_cons_self
      rw [evict_from, erasures]
      by_cases hpath : e.key.path = path
      · have hnodes := h.nodes
        rw [hlru] at hnodes
        have hkeep := coherent_erase h he
        simp only [if_pos hpath, evict_from]
        have hpassed : erase_node e.node c.lru = kept ++ rest := by
          rw [hlru, erase_node_at hnodes]
        obtain ⟨hco, hrest, hmax, hsub⟩ := ih hkeep hpassed
        refine ⟨hco, ?_, hmax, ?_⟩
        · rw [hrest, List.filter_cons_of_neg (by simp [hpath])]
        · intro p hp
          rcases List.mem_append.mp hp with hp | hp
          · rw [List.mem_singleton.mp hp]
            exact size_le_bytes h he
          · exact hsub p hp
      · simp only [if_neg hpath, evict_from, List.nil_append]
        have hpassed : c.lru = (kept ++ [e]) ++ rest := by
          rw [hlru, List.append_assoc]
          rfl
        obtain ⟨hco, hrest, hmax, hsub⟩ := ih h hpassed
        refine ⟨hco, ?_, hmax, hsub⟩
        rw [hrest, List.filter_cons_of_pos (by simp [hpath]), List.append_assoc]
        rfl

theorem evict_spec (h : Coherent c) (path : SSTablePath) :
    Coherent (c.evict path) ∧ (c.evict path).lru = c.lru.filter (·.key.path ≠ path) ∧
      (c.evict path).max_bytes = c.max_bytes ∧ ∀ p ∈ c.erasures path c.lru, p.2 ≤ p.1 :=
  evict_from_spec path c.lru h (List.nil_append c.lru).symm

theorem evictions_covered (n : Nat) {c : BlockCache} (h : Coherent c) :
    ∀ p ∈ c.evictions n, p.2 ≤ p.1 := by
  induction n generalizing c with
  | zero => exact fun p hp => absurd hp List.not_mem_nil
  | succ n ih =>
      intro p hp
      rw [evictions] at hp
      split at hp
      · rcases List.mem_append.mp hp with hp | hp
        · obtain ⟨back, hback, rfl⟩ := Option.map_eq_some_iff.mp (Option.mem_toList.mp hp)
          exact size_le_bytes h (List.mem_of_getLast? hback)
        · exact ih (coherent_evict_lru h).1 p hp
      · cases hp

/-- No subtraction wraps. -/
theorem subtractions_covered (h : Coherent c) (call_ : CacheCall) :
    ∀ p ∈ c.subtractions call_, p.2 ≤ p.1 := by
  intro p hp
  cases call_ with
  | get key => cases hp
  | put key data =>
      obtain ⟨hdrop, hlru, -, -⟩ := drop_key_spec h key
      have hpush := coherent_push_front hdrop (fun e he => by
        rw [hlru] at he
        exact of_decide_eq_true (List.mem_filter.mp he).2) data
      rcases List.mem_append.mp hp with hp | hp
      · obtain ⟨e, he, rfl⟩ := Option.map_eq_some_iff.mp (Option.mem_toList.mp hp)
        obtain ⟨node, -, hnode⟩ := Option.bind_eq_some_iff.mp he
        exact size_le_bytes h (List.mem_of_find?_eq_some hnode)
      · exact evictions_covered _ hpush p hp
  | evict path => exact (evict_spec h path).2.2.2 p hp

/-! ## The calls on the list -/

theorem view_others (key : BlockKey) :
    c.view.others key = (c.lru.filter (·.key ≠ key)).map fun e => (e.key, e.data) := by
  rw [Lru.others, view, List.filter_map]
  rfl

theorem view_get (h : Coherent c) (key : BlockKey) :
    (c.get key).2.view = (c.view.get key).2 ∧ c.read key = (c.view.get key).1 := by
  rw [read, get, Lru.get]
  cases hlook : c.index.lookup key with
  | none =>
      have hnone : c.view.entries.find? (·.1 = key) = none := by
        apply List.find?_eq_none.mpr
        intro x hx
        obtain ⟨e, he, rfl⟩ := List.mem_map.mp hx
        intro hkey
        rw [(h.index key e.node).mpr ⟨e, he, of_decide_eq_true hkey, rfl⟩] at hlook
        cases hlook
      rw [hnone]
      exact ⟨rfl, rfl⟩
  | some node =>
      obtain ⟨e, he, rfl, rfl⟩ := (h.index key node).mp hlook
      have hfound : c.view.entries.find? (·.1 = e.key) = some (e.key, e.data) := by
        cases hfind : c.view.entries.find? (·.1 = e.key) with
        | none =>
            have hno := List.find?_eq_none.mp hfind (e.key, e.data) (List.mem_map.mpr ⟨e, he, rfl⟩)
            exact absurd (decide_eq_true rfl) hno
        | some x =>
            obtain ⟨f, hf, rfl⟩ := List.mem_map.mp (List.mem_of_find?_eq_some hfind)
            have hkey : f.key = e.key := by simpa using List.find?_some hfind
            rw [h.keys hf he hkey]
      have hfront : to_front e.node c.lru = e :: c.lru.filter (·.key ≠ e.key) := by
        rw [to_front, node?_of_mem h.nodes he, erase_node_eq h he]
        rfl
      have hnode : node? e.node (to_front e.node c.lru) = some e := by
        rw [hfront, node?]
        exact List.find?_cons_of_pos (decide_eq_true rfl)
      rw [hfound, view_others]
      apply And.intro
      · simp only [view, hfront, List.map_cons]
      · simp only [Option.bind_some, hnode, Option.map_some]

theorem view_put (h : Coherent c) (key : BlockKey) (data : Bytes) :
    (c.put key data).view = c.view.put key data := by
  obtain ⟨-, hlru, hmax⟩ := put_spec h key data
  have hfit : fit (·.2.length) c.max_bytes
      (((⟨c.next_node, key, data⟩ : Entry) :: c.lru.filter (·.key ≠ key)).map
        fun e => (e.key, e.data)) = _ := fit_map _ _ _
  rw [Lru.put, view_others, view, hlru, hmax]
  exact congrArg (Lru.mk c.max_bytes) hfit.symm

theorem view_evict (h : Coherent c) (path : SSTablePath) :
    (c.evict path).view = c.view.evict path := by
  obtain ⟨-, hlru, hmax, -⟩ := evict_spec h path
  rw [Lru.evict, view, hlru, hmax, view, List.filter_map]
  rfl

/-- One call. -/
theorem call_spec (h : Coherent c) (hfit : c.cur_bytes ≤ c.max_bytes) (call_ : CacheCall) :
    Coherent (c.call call_) ∧ (c.call call_).view = c.view.call call_ ∧
      (c.call call_).cur_bytes ≤ (c.call call_).max_bytes := by
  cases call_ with
  | get key =>
      obtain ⟨hco, -, hmax, -⟩ := get_spec h key
      refine ⟨hco, (view_get h key).1, ?_⟩
      have hsame : (c.get key).2.cur_bytes = c.cur_bytes := by
        rw [get]
        split <;> rfl
      exact hsame.trans_le (hfit.trans_eq hmax.symm)
  | put key data =>
      obtain ⟨hco, hlru, hmax⟩ := put_spec h key data
      refine ⟨hco, view_put h key data, ?_⟩
      rw [call, hco.bytes, hlru, hmax]
      exact total_fit_le _ _
  | evict path =>
      obtain ⟨hco, hlru, hmax, -⟩ := evict_spec h path
      refine ⟨hco, view_evict h path, ?_⟩
      rw [call, hco.bytes, hlru, hmax]
      rw [h.bytes] at hfit
      exact (total_filter_le _ _).trans hfit

/-- What a key's entry holds after a call, told by what it held before. -/
theorem lastPut_concat (key : BlockKey) (calls : List CacheCall) (call_ : CacheCall) :
    lastPut key (calls ++ [call_]) =
      match call_ with
      | .put k data => if k = key then some data else lastPut key calls
      | _ => lastPut key calls := by
  rw [lastPut, List.foldl_append, List.foldl_cons, List.foldl_nil]
  cases call_ <;> rfl

theorem mem_others {key : BlockKey} {l : Lru} {x : BlockKey × Bytes} :
    x ∈ l.others key ↔ x ∈ l.entries ∧ x.1 ≠ key := by
  rw [Lru.others, List.mem_filter, decide_eq_true_eq]

/-- The state after a list of calls. -/
theorem calls_spec (max_bytes : Nat) (calls : List CacheCall) :
    let c := calls.foldl call { max_bytes }
    Coherent c ∧ c.cur_bytes ≤ c.max_bytes ∧ c.max_bytes = max_bytes ∧
      c.view = calls.foldl Lru.call { max_bytes } ∧
      ∀ x ∈ c.view.entries, lastPut x.1 calls = some x.2 := by
  induction calls using List.reverseRecOn with
  | nil => exact ⟨coherent_new max_bytes, Nat.zero_le _, rfl, rfl, fun x hx => by cases hx⟩
  | append_singleton calls call_ ih =>
      obtain ⟨hco, hfit, hmax, hview, hlast⟩ := ih
      rw [List.foldl_concat, List.foldl_concat, ← hview]
      obtain ⟨hco', hview', hfit'⟩ := call_spec hco hfit call_
      refine ⟨hco', hfit', ?_, hview', ?_⟩
      · have hkeep := congrArg Lru.max_bytes hview'
        refine hkeep.trans (Eq.trans ?_ hmax)
        cases call_ with
        | get key =>
            rw [Lru.call, Lru.get]
            split <;> rfl
        | put key data => rfl
        | evict path => rfl
      · intro x hx
        rw [hview'] at hx
        rw [lastPut_concat]
        cases call_ with
        | get key =>
            apply hlast
            rw [Lru.call, Lru.get] at hx
            split at hx
            · exact hx
            · next e hfind =>
                rcases List.mem_cons.mp hx with hx | hx
                · rw [hx]
                  exact List.mem_of_find?_eq_some hfind
                · exact (mem_others.mp hx).1
        | put key data =>
            have hin := (fit_sublist _ _).subset hx
            rcases List.mem_cons.mp hin with hx | hx
            · rw [hx]
              exact if_pos rfl
            · obtain ⟨hin, hkey⟩ := mem_others.mp hx
              exact (if_neg (Ne.symm hkey)).trans (hlast x hin)
        | evict path => exact hlast x (List.mem_filter.mp hx).1

/-- After any calls: the index is the list's, the total is the list's and within
the bound, nothing wrapped on the way, a `get` finds what was last put for a key
that is in the list and nothing for another one, the list is the LRU map's, and
after a `put` it is the longest prefix that fits. -/
theorem cache_refines_lru (max_bytes : Nat) (calls : List CacheCall) :
    let c := calls.foldl call { max_bytes }
    (∀ key node, c.index.lookup key = some node ↔ ∃ e ∈ c.lru, e.key = key ∧ e.node = node) ∧
    (c.lru.map Entry.key).Nodup ∧ (c.lru.map Entry.node).Nodup ∧
    c.cur_bytes = total Entry.size c.lru ∧ c.cur_bytes ≤ max_bytes ∧
    (∀ call_, ∀ p ∈ c.subtractions call_, p.2 ≤ p.1) ∧
    (∀ e ∈ c.lru, c.read e.key = some e.data ∧ lastPut e.key calls = some e.data) ∧
    (∀ key, (∀ e ∈ c.lru, e.key ≠ key) → c.read key = none) ∧
    c.view = calls.foldl Lru.call { max_bytes } ∧
    ∀ before key data, calls = before ++ [.put key data] →
      let used := (key, data) :: (before.foldl call { max_bytes }).view.others key
      c.view.entries <+: used ∧ total (·.2.length) c.view.entries ≤ max_bytes ∧
        ∀ p, p <+: used → total (·.2.length) p ≤ max_bytes → p <+: c.view.entries := by
  intro c
  obtain ⟨hco, hfit, hmax, hview, hlast⟩ := calls_spec max_bytes calls
  have hkeys : (c.lru.map Entry.key).Nodup := by
    have hnodes := hco.nodes
    rw [List.nodup_map_iff_inj_on hco.nodes.of_map]
    intro e he f hf hkey
    exact hco.keys he hf hkey
  refine ⟨hco.index, hkeys, hco.nodes, hco.bytes, hfit.trans_eq hmax,
    subtractions_covered hco, ?_, ?_, hview, ?_⟩
  · intro e he
    have hin : (e.key, e.data) ∈ c.view.entries := List.mem_map.mpr ⟨e, he, rfl⟩
    refine ⟨?_, hlast _ hin⟩
    rw [(view_get hco e.key).2, Lru.get]
    cases hfind : c.view.entries.find? (·.1 = e.key) with
    | none =>
        have hno := List.find?_eq_none.mp hfind _ hin
        exact absurd (decide_eq_true rfl) hno
    | some x =>
        obtain ⟨f, hf, rfl⟩ := List.mem_map.mp (List.mem_of_find?_eq_some hfind)
        have hkey : f.key = e.key := by simpa using List.find?_some hfind
        rw [hco.keys hf he hkey]
  · intro key hnone
    rw [read, get]
    cases hlook : c.index.lookup key with
    | none => rfl
    | some node =>
        obtain ⟨e, he, hkey, -⟩ := (hco.index key node).mp hlook
        exact absurd hkey (hnone e he)
  · intro before key data hcalls used
    obtain ⟨hbefore, -, hmax', -⟩ := calls_spec max_bytes before
    have hput : c.view.entries = fit (·.2.length) max_bytes used := by
      have hstep := view_put hbefore key data
      have hc : c = (before.foldl call { max_bytes }).put key data := by
        rw [show c = calls.foldl call { max_bytes } by rfl, hcalls, List.foldl_concat]
        rfl
      rw [hc, hstep, Lru.put]
      exact congrArg (fun m => fit (·.2.length) m used) hmax'
    rw [hput]
    exact ⟨fit_is_initial _ _, total_fit_le _ _, fun p hp hle => prefix_fit hp hle⟩

end Kronos.BlockCache
