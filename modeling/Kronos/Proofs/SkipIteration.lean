import Kronos.Lib.Run
import Kronos.Proofs.SkipInsert
import Kronos.Spec.SkipIteration

/-!
# Iterating while the writer inserts

Between any two stores `Rep` holds, with the new node on the levels it is linked
in so far. What the writer does only adds: nodes stay where they are, on the
levels they are on, with their keys (`Grows`). So a reader that stands at a node
of level 0 goes on to the next one of that moment, and everything that was there
when it started lies either behind it or ahead.
-/

namespace Kronos

open SkipList Linked Spec

variable {K V : Type}

/-! ## What the writer adds -/

/-- The nodes of level 0 stay there, with their keys and on their levels. -/
def Grows (s : SkipList K V) (base : List Addr) (lv : Addr → Nat) (s' : SkipList K V)
    (base' : List Addr) (lv' : Addr → Nat) : Prop :=
  ∀ a ∈ base, a ∈ base' ∧ lv a ≤ lv' a ∧ s'.key a = s.key a

/-- Every value was inserted under the key of its node. -/
def Valued (s : SkipList K V) (inserted : List (K × V)) (base : List Addr) : Prop :=
  ∀ a ∈ base, ∃ v, s.value a = some v ∧ (s.key a, v) ∈ inserted

variable {s : SkipList K V} {inserted : List (K × V)} {base : List Addr} {lv : Addr → Nat}

theorem grows_same {s' : SkipList K V} (hsame : SameNodes s s') {base' : List Addr}
    {lv' : Addr → Nat} (hsub : ∀ a ∈ base, a ∈ base') (hlv : ∀ a ∈ base, lv a ≤ lv' a) :
    Grows s base lv s' base' lv' := fun a ha =>
  ⟨hsub a ha, hlv a ha, by rw [hsame.key]⟩

theorem valued_same {s' : SkipList K V} (hsame : SameNodes s s') (h : Valued s inserted base) :
    Valued s' inserted base := by
  intro a ha
  rw [hsame.key, hsame.value]
  exact h a ha

theorem Valued.mono {inserted' : List (K × V)} (h : Valued s inserted base)
    (hsub : ∀ p ∈ inserted, p ∈ inserted') : Valued s inserted' base := by
  intro a ha
  obtain ⟨v, hv, hin⟩ := h a ha
  exact ⟨v, hv, hsub _ hin⟩

/-! ## The writer -/

variable [LinearOrder K]

/-- The list as the writer has left it, with `base` and `lv` as in `Rep`. -/
inductive Inserting (s : SkipList K V) (inserted : List (K × V)) :
    ListWriter K V → List Addr → (Addr → Nat) → Prop where
  | idle {base : List Addr} (rep : Rep s base s.height) : Inserting s inserted .idle base s.height
  | counting {base : List Addr} (rep : Rep s base s.height) :
      Inserting s inserted .counting base s.height
  | replacing {base : List Addr} (rep : Rep s base s.height) {x : Addr} {v : V}
      (hv : (s.key x, v) ∈ inserted) : Inserting s inserted (.replacing x v) base s.height
  | raising {lo hi : List Addr} (rep : Rep s (lo ++ hi) s.height) {k : K} {v : V} {h : Nat}
      {prev : Prev} (hlo : ∀ a ∈ lo, s.key a < k) (hhi : ∀ a ∈ hi, k < s.key a)
      (hpos : 0 < h) (hraise : s.max_height ≤ h) (hmax : h ≤ kMaxHeight)
      (hprev : ∀ j < h, prev j = some (predOf s lo j)) (hv : (k, v) ∈ inserted) :
      Inserting s inserted (.raising k v h prev) (lo ++ hi) s.height
  | linking {lo hi : List Addr} {n : Addr} {k : K} {v : V} {h i : Nat} {prev : Prev} {ready : Bool}
      (link : Linking s lo hi n k h i) (hlt : i < h)
      (hprev : ∀ j < h, prev j = some (predOf s lo j))
      (hready : ready = true → s.load_next n i = s.load_next (predOf s lo i) i)
      (hvalue : s.value n = some v) (hv : (k, v) ∈ inserted) :
      Inserting s inserted (.linking n h prev i ready) (around lo n hi i) (s.levelsWith n i)

theorem Inserting.rep {w : ListWriter K V} (h : Inserting s inserted w base lv) : Rep s base lv := by
  cases h with
  | idle rep => exact rep
  | counting rep => exact rep
  | replacing rep => exact rep
  | raising rep => exact rep
  | linking link => exact link.rep

/-- The list after a step of the writer. -/
structure Wrote (s : SkipList K V) (base : List Addr) (lv : Addr → Nat)
    (inserted : List (K × V)) (r : ListWriter K V × SkipList K V) (base' : List Addr)
    (lv' : Addr → Nat) : Prop where
  writing : Inserting r.2 inserted r.1 base' lv'
  valued : Valued r.2 inserted base'
  grows : Grows s base lv r.2 base' lv'

/-- The first store of the loop is the next, whichever store was before. -/
theorem wrote_allocate {lo hi : List Addr} (rep : Rep s (lo ++ hi) s.height) {k : K} {v : V}
    {h : Nat} {prev : Prev} (hlo : ∀ a ∈ lo, s.key a < k) (hhi : ∀ a ∈ hi, k < s.key a)
    (hpos : 0 < h) (hmax : h ≤ s.max_height)
    (hprev : ∀ j < h, prev j = some (predOf s lo j)) (hv : (k, v) ∈ inserted)
    (hvals : Valued s inserted (lo ++ hi)) :
    Wrote s (lo ++ hi) s.height inserted (ListWriter.allocate k v h prev s)
      (around lo s.allocated hi 0) ((s.new_node k v h).levelsWith s.allocated 0) := by
  have hlink := rep.linking v hmax hlo hhi
  have hold : ∀ a ∈ lo ++ hi, (s.new_node k v h).heap a = s.heap a ∧ a ≠ s.allocated := by
    intro a ha
    have hne : a ≠ s.allocated := Nat.ne_of_lt (rep.nodes a ha).2
    exact ⟨heap_new_node_ne s a v h k hne, hne⟩
  have hpred : ∀ j, predOf (s.new_node k v h) lo j = predOf s lo j := by
    intro j
    rw [predOf, predOf]
    congr 1
    refine List.filter_congr fun a ha => ?_
    rw [height, height, (hold a (List.mem_append_left _ ha)).1]
  have hself := heap_new_node s v h k
  have hvalue : (s.new_node k v h).value s.allocated = some v := by rw [SkipList.value, hself]
  refine ⟨.linking hlink hpos (fun j hj => ?_) (fun hready => by cases hready) hvalue hv,
    fun a ha => ?_, fun a ha => ⟨ha, ?_, ?_⟩⟩
  · exact (hprev j hj).trans (congrArg some (hpred j).symm)
  · obtain ⟨w, hw, hin⟩ := hvals a ha
    rw [ListWriter.allocate, SkipList.value, key, (hold a ha).1]
    exact ⟨w, hw, hin⟩
  · rw [levelsWith, if_neg (hold a ha).2, height, height, (hold a ha).1]
  · rw [ListWriter.allocate, key, (hold a ha).1, key]

theorem Inserting.store {w : ListWriter K V} (h : Inserting s inserted w base lv)
    (hvals : Valued s inserted base) :
    ∃ base' lv', Wrote s base lv inserted (w.store s) base' lv' := by
  cases h with
  | idle rep => exact ⟨_, _, .idle rep, hvals, fun a ha => ⟨ha, Nat.le_refl _, rfl⟩⟩
  | counting rep =>
      exact ⟨_, _, .idle (rep.recount _), hvals, fun a ha => ⟨ha, Nat.le_refl _, rfl⟩⟩
  | @replacing _ rep x v hv =>
      have hheight : (s.store_val_ptr x v).height = s.height :=
        funext fun a => height_store_val s x a v
      have hrep := rep.replace x v
      rw [← hheight] at hrep
      refine ⟨_, _, .idle hrep, fun a ha => ?_, fun a ha => ⟨ha, ?_, key_store_val s x a v⟩⟩
      · rw [ListWriter.store, value_store_val, key_store_val]
        split
        · next heq => exact ⟨v, rfl, by rw [heq]; exact hv⟩
        · exact hvals a ha
      · rw [ListWriter.store, hheight]
  | @raising lo hi rep k v h prev hlo hhi hpos hraise hmax hprev hv =>
      obtain ⟨hwriting, hvalued, hgrows⟩ := wrote_allocate (s := s.store_max_height h)
        (rep.raise hraise hmax) hlo hhi hpos (Nat.le_refl h) hprev hv hvals
      exact ⟨_, _, hwriting, hvalued, hgrows⟩
  | @linking lo hi n k v h i prev ready link hlt hprev hready hvalue hv =>
      cases ready with
      | false =>
          have hsame := same_store_next s n i (s.load_next (predOf s lo i) i)
          have hstore : ListWriter.store (.linking n h prev i false) s =
              (.linking n h prev i true, s.store_next n i (s.load_next (predOf s lo i) i)) := by
            rw [ListWriter.store]
            simp only [hprev i hlt]
          rw [hstore]
          have hlink := link.prepare (s.load_next (predOf s lo i) i)
          have hpred : ∀ j, predOf (s.store_next n i (s.load_next (predOf s lo i) i)) lo j =
              predOf s lo j := fun j => by rw [predOf, hsame.height, predOf]
          refine ⟨_, _, .linking hlink hlt (fun j hj => ?_) (fun _ => ?_) ?_ hv,
            valued_same hsame hvals, grows_same hsame (fun a ha => ha) fun a ha => ?_⟩
          · rw [hprev j hj, hpred]
          · rw [hlink.next_pred, hsame.height, ← link.next_pred, load_next_store,
              if_pos ⟨rfl, rfl⟩]
          · rw [hsame.value]
            exact hvalue
          · rw [levelsWith, levelsWith, hsame.height]
      | true =>
          have hsame := same_store_next s (predOf s lo i) i (some n)
          have hlink := link.link hlt (hready rfl)
          have hstore : ListWriter.store (.linking n h prev i true) s =
              (if i + 1 < h then .linking n h prev (i + 1) false else .counting,
                s.store_next (predOf s lo i) i (some n)) := by
            rw [ListWriter.store]
            simp only [hprev i hlt]
          have hsub : ∀ a ∈ around lo n hi i, a ∈ around lo n hi (i + 1) := by
            intro a ha
            obtain ha | ⟨-, ha⟩ | ha := mem_around.mp ha
            · exact mem_around.mpr (.inl ha)
            · exact mem_around.mpr (.inr (.inl ⟨Nat.succ_ne_zero i, ha⟩))
            · exact mem_around.mpr (.inr (.inr ha))
          have hlv : ∀ a ∈ around lo n hi i, s.levelsWith n i a ≤
              (s.store_next (predOf s lo i) i (some n)).levelsWith n (i + 1) a := by
            intro a _
            rw [levelsWith, levelsWith, hsame.height]
            split
            · exact Nat.le_succ i
            · exact Nat.le_refl _
          have hvalued : Valued (s.store_next (predOf s lo i) i (some n)) inserted
              (around lo n hi (i + 1)) := by
            intro a ha
            rw [hsame.key, hsame.value]
            obtain ha | ⟨-, rfl⟩ | ha := mem_around.mp ha
            · exact hvals a (mem_around.mpr (.inl ha))
            · rw [link.keyed]
              exact ⟨v, hvalue, hv⟩
            · exact hvals a (mem_around.mpr (.inr (.inr ha)))
          rw [hstore]
          by_cases hmore : i + 1 < h
          · refine ⟨_, _, ?_, hvalued, grows_same hsame hsub hlv⟩
            rw [if_pos hmore]
            refine .linking hlink hmore (fun j hj => ?_) (fun hno => by cases hno) ?_ hv
            · rw [hprev j hj, predOf, predOf, hsame.height]
            · rw [hsame.value]
              exact hvalue
          · -- the last level: the node is as high as it is
            have hlast : i + 1 = h := by omega
            subst hlast
            have hdone := hlink.done (Nat.succ_pos i)
            refine ⟨lo ++ n :: hi, (s.store_next (predOf s lo i) i (some n)).height, ?_, hvalued,
              grows_same hsame hsub fun a ha => ?_⟩
            · rw [if_neg hmore]
              exact .counting hdone
            · refine (hlv a ha).trans ?_
              rw [levelsWith]
              split
              · next heq => rw [heq, hlink.high]
              · exact Nat.le_refl _

theorem begin_over {k : K} {x y : Addr} {prev : Prev} (hfind : s.find_prev k = some (x, prev))
    (hload : s.load_next x 0 = some y) (htest : s.has_key k (some y) = true) (v : V)
    (height : Fin kMaxHeight) : ListWriter.begin k v height s = (.replacing y v, s) := by
  rw [ListWriter.begin, hfind]
  simp only [hload, htest]

theorem begin_new {k : K} {x : Addr} {prev : Prev} (hfind : s.find_prev k = some (x, prev))
    (htest : s.has_key k (s.load_next x 0) = false) (v : V) (height : Fin kMaxHeight) :
    ListWriter.begin k v height s =
      if s.max_height < height.val + 1 then
        (.raising k v (height.val + 1) (raise_prev s.max_height (height.val + 1) prev), s)
      else ListWriter.allocate k v (height.val + 1)
        (raise_prev s.max_height (height.val + 1) prev) s := by
  rw [ListWriter.begin, hfind]
  cases hload : s.load_next x 0 with
  | none => simp only [hload]
  | some y =>
      rw [hload] at htest
      simp only [hload, htest]

/-- An insert that begins finds its place. -/
theorem Inserting.begin (h : Inserting s inserted .idle base lv) (hvals : Valued s inserted base)
    (k : K) (v : V) (height : Fin kMaxHeight) :
    ∃ base' lv', Wrote s base lv (inserted ++ [(k, v)]) (ListWriter.begin k v height s) base' lv' := by
  have hsub : ∀ p ∈ inserted, p ∈ inserted ++ [(k, v)] := fun p hp => List.mem_append_left _ hp
  have hnew : (k, v) ∈ inserted ++ [(k, v)] := List.mem_append_right _ (List.mem_singleton.mpr rfl)
  have hvals' := hvals.mono hsub
  have hrefl : Grows s base lv s base lv := fun a ha => ⟨ha, Nat.le_refl _, rfl⟩
  cases h with
  | idle rep =>
      obtain ⟨x, prev, hfind, ⟨lo, y, hi, rfl, hlo, hy, hload, htest⟩ |
        ⟨lo, hi, rfl, hlo, hhi, htest, hprev⟩⟩ := rep.find_cases k
      · rw [begin_over hfind hload htest]
        exact ⟨_, _, .replacing rep (by rw [hy]; exact hnew), hvals', hrefl⟩
      · have hprev' : ∀ j < height.val + 1,
            raise_prev s.max_height (height.val + 1) prev j = some (predOf s lo j) :=
          fun j hj => hprev _ j hj
        rw [begin_new hfind htest]
        split
        · next hlt =>
            exact ⟨_, _, .raising rep hlo hhi (Nat.succ_pos _) hlt.le height.isLt hprev' hnew,
              hvals', hrefl⟩
        · next hge =>
            exact ⟨_, _, wrote_allocate rep hlo hhi (Nat.succ_pos _) (not_lt.mp hge) hprev' hnew
              hvals'⟩

/-! ## The writer alone -/

def alone (r : ListWriter K V × SkipList K V) : ListWriter K V × SkipList K V := r.1.store r.2

omit [LinearOrder K] in
/-- Two stores a level. -/
theorem alone_levels {n : Addr} {prev : Prev} {h j : Nat} (hj : j ≤ h) (hpos : 0 < h)
    {s u : SkipList K V} (hrun : (List.range j).foldlM (link_level n prev) s = some u) :
    alone^[2 * j] (.linking n h prev 0 false, s) =
      (if j < h then .linking n h prev j false else .counting, u) := by
  induction j generalizing u with
  | zero =>
      cases hrun
      rw [if_pos hpos]
      rfl
  | succ j ih =>
      rw [List.range_succ, List.foldlM_append] at hrun
      obtain ⟨t, ht, hlast⟩ := Option.bind_eq_some_iff.mp hrun
      have hlink : link_level n prev t j = some u := by
        simpa using hlast
      obtain ⟨p, hp, hu⟩ := Option.bind_eq_some_iff.mp hlink
      have hstores : alone (alone (.linking n h prev j false, t)) =
          (if j + 1 < h then .linking n h prev (j + 1) false else .counting, u) := by
        rw [← Option.some.inj hu]
        simp only [alone, ListWriter.store, hp]
      have htwo : 2 * (j + 1) = 2 * j + 1 + 1 := by omega
      rw [htwo, Function.iterate_succ_apply', Function.iterate_succ_apply',
        ih (by omega) ht, if_pos (by omega), hstores]

/-- The stores of an insert, one after the other, are `insert`. -/
theorem alone_insert {s s' : SkipList K V} {k : K} {v : V} {height : Fin kMaxHeight}
    (hinsert : s.insert k v height = some s') :
    ∃ n, alone^[n] (ListWriter.begin k v height s) = (.idle, s') := by
  cases hfind : s.find_prev k with
  | none => simp [SkipList.insert, hfind] at hinsert
  | some found =>
      obtain ⟨x, prev⟩ := found
      cases htest : s.has_key k (s.load_next x 0) with
      | true =>
          cases hload : s.load_next x 0 with
          | none => simp [hload, has_key] at htest
          | some y =>
              rw [hload] at htest
              rw [insert_over hfind hload htest] at hinsert
              refine ⟨1, ?_⟩
              rw [begin_over hfind hload htest, ← Option.some.inj hinsert]
              rfl
      | false =>
          rw [insert_new hfind htest] at hinsert
          obtain ⟨u, hrun, hu⟩ := Option.map_eq_some_iff.mp hinsert
          have hlevels := alone_levels (Nat.le_refl (height.val + 1)) (Nat.succ_pos _) hrun
          rw [if_neg (lt_irrefl _)] at hlevels
          rw [begin_new hfind htest]
          have hcount : alone (.counting, u) = (.idle, s') := by
            rw [← hu]
            rfl
          split
          · next hlt =>
              refine ⟨2 * (height.val + 1) + 1 + 1, ?_⟩
              rw [Function.iterate_succ_apply, Function.iterate_succ_apply']
              rw [max_eq_right hlt.le] at hlevels
              exact (congrArg alone hlevels).trans hcount
          · next hge =>
              refine ⟨2 * (height.val + 1) + 1, ?_⟩
              rw [Function.iterate_succ_apply']
              rw [max_eq_left (not_lt.mp hge)] at hlevels
              exact (congrArg alone hlevels).trans hcount

/-! ## The reader -/

/-- What the iteration has seen when `base` is level 0; `base0` was when it started. -/
structure Seen (s : SkipList K V) (base base0 : List Addr) (target : Option K)
    (visited : List K) : Prop where
  increasing : visited.Pairwise (· < ·)
  above : ∀ t, target = some t → ∀ k ∈ visited, t ≤ k
  known : ∀ k ∈ visited, ∃ a ∈ base, s.key a = k
  complete : ∀ b ∈ base0, (∀ t, target = some t → t ≤ s.key b) →
    (∃ z ∈ visited, s.key b ≤ z) → s.key b ∈ visited

theorem seen_start (s : SkipList K V) (base base0 : List Addr) (target : Option K) :
    Seen s base base0 target [] := by
  refine ⟨List.Pairwise.nil, fun t _ k hk => ?_, fun k hk => ?_, fun b _ _ hz => ?_⟩
  · cases hk
  · cases hk
  · obtain ⟨z, hz, -⟩ := hz
    cases hz

/-- The node come to is the next one from the target on. -/
theorem Seen.arrive {s : SkipList K V} {base base0 : List Addr} {target : Option K}
    {visited : List K} (h : Seen s base base0 target visited) (hsub : ∀ b ∈ base0, b ∈ base)
    {c : Addr} (hc : c ∈ base) (hlast : ∀ z ∈ visited, z < s.key c)
    (hfrom : ∀ t, target = some t → t ≤ s.key c)
    (hgap : ∀ b ∈ base, (∀ t, target = some t → t ≤ s.key b) → s.key b < s.key c →
      ∃ z ∈ visited, s.key b ≤ z) :
    Seen s base base0 target (visited ++ [s.key c]) := by
  refine ⟨?_, fun t ht k hk => ?_, fun k hk => ?_, fun b hb hb0 hz => ?_⟩
  · refine List.pairwise_append.mpr ⟨h.increasing, List.pairwise_singleton _ _, ?_⟩
    intro z hz k hk
    rw [List.mem_singleton.mp hk]
    exact hlast z hz
  · obtain hk | hk := List.mem_append.mp hk
    · exact h.above t ht k hk
    · rw [List.mem_singleton.mp hk]
      exact hfrom t ht
  · obtain hk | hk := List.mem_append.mp hk
    · exact h.known k hk
    · exact ⟨c, hc, (List.mem_singleton.mp hk).symm⟩
  · rcases lt_trichotomy (s.key b) (s.key c) with hlt | heq | hgt
    · exact List.mem_append_left _ (h.complete b hb hb0 (hgap b (hsub b hb) hb0 hlt))
    · rw [heq]
      exact List.mem_append_right _ (List.mem_singleton.mpr rfl)
    · obtain ⟨z, hz, hle⟩ := hz
      obtain hz | hz := List.mem_append.mp hz
      · exact absurd (hgt.trans_le hle) (not_lt.mpr (hlast z hz).le)
      · rw [List.mem_singleton.mp hz] at hle
        exact absurd hgt (not_lt.mpr hle)

/-- Where the reader is, and what it has seen by then. -/
inductive Reading (s : SkipList K V) (base : List Addr) (lv : Addr → Nat) (base0 : List Addr)
    (target : Option K) (visited : List K) : ListReader K → Prop where
  | idle (seen : Seen s base base0 target visited) : Reading s base lv base0 target visited .idle
  | seeking {t : K} {x : Addr} {lvl : Nat} (ht : target = some t) (hvisited : visited = [])
      (hx : x = head ∨ x ∈ base ∧ lvl < lv x ∧ s.key x < t) :
      Reading s base lv base0 target visited (.seeking t x lvl)
  | on {node : Option Addr} (seen : Seen s base base0 target visited)
      (hnode : ∀ a, node = some a → a ∈ base ∧ visited.getLast? = some (s.key a)) :
      Reading s base lv base0 target visited (.on node)

section
variable {base0 : List Addr} {target : Option K} {visited : List K}

theorem Seen.grow (h : Seen s base base0 target visited) {s' : SkipList K V} {base' : List Addr}
    {lv' : Addr → Nat} (hg : Grows s base lv s' base' lv') (hsub : ∀ b ∈ base0, b ∈ base) :
    Seen s' base' base0 target visited := by
  refine ⟨h.increasing, h.above, fun k hk => ?_, fun b hb hb0 hz => ?_⟩
  · obtain ⟨a, ha, hkey⟩ := h.known k hk
    obtain ⟨ha', -, heq⟩ := hg a ha
    exact ⟨a, ha', heq.trans hkey⟩
  · obtain ⟨-, -, heq⟩ := hg b (hsub b hb)
    rw [heq] at hb0 hz ⊢
    exact h.complete b hb hb0 hz

/-- The reader is not disturbed by what the writer adds. -/
theorem Reading.grow {r : ListReader K} (h : Reading s base lv base0 target visited r)
    {s' : SkipList K V} {base' : List Addr} {lv' : Addr → Nat}
    (hg : Grows s base lv s' base' lv') (hsub : ∀ b ∈ base0, b ∈ base) :
    Reading s' base' lv' base0 target visited r := by
  cases h with
  | idle seen => exact .idle (seen.grow hg hsub)
  | seeking ht hvisited hx =>
      refine .seeking ht hvisited (hx.imp_right fun hx => ?_)
      obtain ⟨hmem, hlv, hkey⟩ := hx
      obtain ⟨hmem', hle, heq⟩ := hg _ hmem
      exact ⟨hmem', Nat.lt_of_lt_of_le hlv hle, by rw [heq]; exact hkey⟩
  | on seen hnode =>
      refine .on (seen.grow hg hsub) fun a ha => ?_
      obtain ⟨hmem, hlast⟩ := hnode a ha
      obtain ⟨hmem', -, heq⟩ := hg a hmem
      exact ⟨hmem', by rw [heq]; exact hlast⟩

/-- A front of level 0 that ends at the head or at a node of it. -/
theorem front_of {x : Addr} (hx : x = head ∨ x ∈ base) :
    ∃ pre suf, base = pre ++ suf ∧ lastOf head pre = x ∧ (pre = [] ∨ x ∈ base) := by
  obtain rfl | hx := hx
  · exact ⟨[], base, rfl, rfl, .inl rfl⟩
  · obtain ⟨pre, suf, hbase⟩ := List.append_of_mem hx
    refine ⟨pre ++ [x], suf, ?_, lastOf_concat _ _ _, .inr hx⟩
    rw [hbase, List.append_assoc]
    rfl

theorem front_le (h : Rep s base lv) {pre suf : List Addr} (hbase : base = pre ++ suf) {a : Addr}
    (ha : a ∈ pre) : s.key a ≤ s.key (lastOf head pre) := by
  induction pre using List.reverseRecOn generalizing suf with
  | nil => cases ha
  | append_singleton pre x _ =>
      rw [lastOf_concat]
      have hsorted := h.sorted
      rw [hbase] at hsorted
      have hpre := (List.pairwise_append.mp hsorted).1
      obtain ha | ha := List.mem_append.mp ha
      · exact ((List.pairwise_append.mp hpre).2.2 a ha x (List.mem_singleton.mpr rfl)).le
      · rw [List.mem_singleton.mp ha]

/-- The iterator comes to the node behind a front that it is through with. -/
theorem Reading.arrive (h : Rep s base lv) (hsub : ∀ b ∈ base0, b ∈ base)
    (seen : Seen s base base0 target visited) {pre suf : List Addr} (hbase : base = pre ++ suf)
    (hlast : ∀ a ∈ suf, ∀ z ∈ visited, z < s.key a)
    (hfrom : ∀ a ∈ suf, ∀ t, target = some t → t ≤ s.key a)
    (hpre : ∀ b ∈ pre, (∀ t, target = some t → t ≤ s.key b) → ∃ z ∈ visited, s.key b ≤ z) :
    Reading s base lv base0 target (visited ++ (suf.head?.map s.key).toList) (.on suf.head?) := by
  cases suf with
  | nil =>
      rw [List.head?_nil, Option.map_none, Option.toList_none, List.append_nil]
      exact .on seen fun a ha => by cases ha
  | cons c suf =>
      have hc : c ∈ base := hbase ▸ List.mem_append_right _ List.mem_cons_self
      rw [List.head?_cons, Option.map_some, Option.toList_some]
      refine .on (seen.arrive hsub hc (hlast c List.mem_cons_self) (hfrom c List.mem_cons_self)
        fun b hb hb0 hlt => ?_) fun a ha => ?_
      · rw [hbase] at hb
        obtain hb | hb := List.mem_append.mp hb
        · exact hpre b hb hb0
        · -- the node come to is the first of the rest
          have hsorted := h.sorted
          rw [hbase] at hsorted
          have hsuf := List.pairwise_cons.mp (List.pairwise_append.mp hsorted).2.1
          obtain rfl | hb := List.mem_cons.mp hb
          · exact absurd hlt (lt_irrefl _)
          · exact absurd hlt (not_lt.mpr (hsuf.1 b hb).le)
      · cases ha
        exact ⟨hc, List.getLast?_concat⟩

theorem le_last {l : List K} (h : l.Pairwise (· < ·)) {m z : K} (hm : l.getLast? = some m)
    (hz : z ∈ l) : z ≤ m := by
  obtain ⟨front, rfl⟩ := List.getLast?_eq_some_iff.mp hm
  obtain hz | hz := List.mem_append.mp hz
  · exact ((List.pairwise_append.mp h).2.2 z hz m (List.mem_singleton.mpr rfl)).le
  · rw [List.mem_singleton.mp hz]

/-- `next` loads the pointer of a node of level 0. -/
theorem Reading.next (h : Rep s base lv) (hsub : ∀ b ∈ base0, b ∈ base) {x : Addr}
    (hr : Reading s base lv base0 target visited (.on (some x))) :
    Reading s base lv base0 target (visited ++ ((s.next x).map s.key).toList)
      (.on (s.next x)) := by
  cases hr with
  | on seen hnode =>
      obtain ⟨hx, hvisited⟩ := hnode x rfl
      obtain ⟨pre, suf, hbase⟩ := List.append_of_mem hx
      have hsplit : base = (pre ++ [x]) ++ suf := by rw [hbase, List.append_assoc]; rfl
      have hafter : ∀ a ∈ suf, s.key x < s.key a := by
        have hsorted := h.sorted
        rw [hbase] at hsorted
        exact (List.pairwise_cons.mp (List.pairwise_append.mp hsorted).2.1).1
      have hmem : s.key x ∈ visited := List.mem_of_getLast? hvisited
      rw [h.next_behind hbase]
      refine .arrive h hsub seen hsplit (fun a ha z hz => ?_) (fun a ha t ht => ?_)
        fun b hb _ => ⟨s.key x, hmem, ?_⟩
      · exact (le_last seen.increasing hvisited hz).trans_lt (hafter a ha)
      · exact (seen.above t ht _ hmem).trans (hafter a ha).le
      · have hle := front_le h hsplit hb
        rw [lastOf_concat] at hle
        exact hle

theorem Reading.first (h : Rep s base lv) (hsub : ∀ b ∈ base0, b ∈ base) :
    Reading s base lv base0 none ([] ++ (s.seek_to_first.map s.key).toList)
      (.on s.seek_to_first) := by
  have hbase : base = [] ++ base := rfl
  rw [h.first_eq]
  refine .arrive h hsub (seen_start s base base0 none) hbase (fun a _ z hz => ?_)
    (fun a _ t ht => ?_) fun b hb _ => ?_
  · cases hz
  · cases ht
  · cases hb

/-- A load of the search goes on, or comes to the first node from the target on. -/
theorem Reading.load (h : Rep s base lv) (hsub : ∀ b ∈ base0, b ∈ base) {t : K} {x : Addr}
    {lvl : Nat} (hr : Reading s base lv base0 target visited (.seeking t x lvl)) :
    match s.search_round t x lvl with
    | .at_ x lvl => Reading s base lv base0 target visited (.seeking t x lvl)
    | .found node =>
        Reading s base lv base0 target (visited ++ (node.map s.key).toList) (.on node) := by
  cases hr with
  | seeking ht hvisited hx =>
      obtain ⟨pre, suf, hbase, hlast, hempty⟩ := front_of (hx.imp_right And.left)
      have hreach : pre = [] ∨ lvl < lv (lastOf head pre) := by
        obtain hempty | hmem := hempty
        · exact .inl hempty
        · obtain rfl | hx := hx
          · exact absurd (h.nodes _ hmem).1 (lt_irrefl _)
          · rw [hlast]
            exact .inr hx.2.1
      have hbelow : ∀ a ∈ pre, s.key a < t := by
        intro a ha
        have hle := front_le h hbase ha
        rw [hlast] at hle
        obtain rfl | hx := hx
        · obtain hempty | hmem := hempty
          · rw [hempty] at ha
            cases ha
          · exact absurd (h.nodes _ hmem).1 (lt_irrefl _)
        · exact hle.trans_lt hx.2.2
      have hround := h.round hbase hreach t
      rw [hlast] at hround
      obtain ⟨mid, n, rest, hsuf, hlv, hlt, hload⟩ | ⟨hstop, hhigh⟩ := hround
      · have hn : n ∈ base := by
          rw [hbase, hsuf]
          exact List.mem_append_right _ (List.mem_append_right _ List.mem_cons_self)
        rw [search_round_right hload hlt]
        exact .seeking ht hvisited (.inr ⟨hn, hlv, hlt⟩)
      · cases lvl with
        | zero =>
            rw [search_round_end hstop]
            have hnext := h.next_zero hbase
            rw [hlast] at hnext
            have hzero : ∀ a ∈ suf, t ≤ s.key a := fun a ha =>
              hhigh a ha (h.levels a (hbase ▸ List.mem_append_right _ ha)).1
            subst hvisited
            simp only [hnext]
            refine .arrive h hsub (seen_start s base base0 target) hbase (fun a _ z hz => ?_)
              (fun a ha t' ht' => ?_) fun b hb hb0 => ?_
            · cases hz
            · rw [ht] at ht'
              cases ht'
              exact hzero a ha
            · exact absurd (hbelow b hb) (not_lt.mpr (hb0 t ht))
        | succ lvl =>
            rw [search_round_down hstop]
            refine .seeking ht hvisited (hx.imp_right fun hx => ?_)
            exact ⟨hx.1, by omega, hx.2.2⟩

theorem Reading.seen {r : ListReader K} (h : Reading s base lv base0 target visited r) :
    Seen s base base0 target visited := by
  cases h with
  | idle seen => exact seen
  | seeking ht hvisited hx =>
      rw [hvisited]
      exact seen_start s base base0 target
  | on seen hnode => exact seen

end

/-- What is linked in is level 0. -/
theorem linkedIn_mem (h : Rep s base lv) {x : Addr} (hx : LinkedIn s x) : x ∈ base := by
  induction hx with
  | first hfirst =>
      rw [h.first_eq] at hfirst
      exact List.mem_of_head? hfirst
  | next _ hnext ih =>
      obtain ⟨pre, suf, hbase⟩ := List.append_of_mem ih
      rw [h.next_behind hbase] at hnext
      rw [hbase]
      exact List.mem_append_right _ (List.mem_cons_of_mem _ (List.mem_of_head? hnext))

/-! ## Both together -/

/-- What holds between any two steps; `base` is level 0 now, `base0` was when the
iteration started. -/
structure Iterating (s : SkipThreads K V) (base : List Addr) (lv : Addr → Nat)
    (base0 : List Addr) (lv0 : Addr → Nat) : Prop where
  inserting : Inserting s.list s.inserted s.writer base lv
  valued : Valued s.list s.inserted base
  start : Rep s.start base0 lv0
  kept : ∀ b ∈ base0, b ∈ base ∧ s.list.key b = s.start.key b
  reading : Reading s.list base lv base0 s.target s.visited s.reader
  values : ∀ p ∈ s.reads, ∃ v, p.2 = some v ∧ (p.1, v) ∈ s.inserted

/-- A step of the writer. -/
theorem Iterating.wrote {s : SkipThreads K V} {base : List Addr} {lv : Addr → Nat}
    {base0 : List Addr} {lv0 : Addr → Nat} (h : Iterating s base lv base0 lv0)
    {inserted : List (K × V)} (hsub : ∀ p ∈ s.inserted, p ∈ inserted)
    {r : ListWriter K V × SkipList K V} {base' : List Addr} {lv' : Addr → Nat}
    (hw : Wrote s.list base lv inserted r base' lv') :
    Iterating { s with writer := r.1, list := r.2, inserted } base' lv' base0 lv0 := by
  refine ⟨hw.writing, hw.valued, h.start, fun b hb => ?_, ?_, fun p hp => ?_⟩
  · obtain ⟨hmem, hkey⟩ := h.kept b hb
    obtain ⟨hmem', -, hkey'⟩ := hw.grows b hmem
    exact ⟨hmem', hkey'.trans hkey⟩
  · exact h.reading.grow hw.grows fun b hb => (h.kept b hb).1
  · obtain ⟨v, hv, hin⟩ := h.values p hp
    exact ⟨v, hv, hsub _ hin⟩

/-- A step of the reader within its iteration. -/
theorem Iterating.read {s : SkipThreads K V} {base : List Addr} {lv : Addr → Nat}
    {base0 : List Addr} {lv0 : Addr → Nat} (h : Iterating s base lv base0 lv0) {reader : ListReader K}
    {visited : List K} (hr : Reading s.list base lv base0 s.target visited reader) :
    Iterating { s with reader, visited } base lv base0 lv0 :=
  ⟨h.inserting, h.valued, h.start, h.kept, hr, h.values⟩

/-- The first step of an iteration. -/
theorem Iterating.restart {s : SkipThreads K V} {base : List Addr} {lv : Addr → Nat}
    {base0 : List Addr} {lv0 : Addr → Nat} (h : Iterating s base lv base0 lv0)
    {target : Option K} {reader : ListReader K} {visited : List K}
    (hr : Reading s.list base lv base target visited reader) :
    Iterating { s.restart target with reader, visited } base lv base lv := by
  refine ⟨h.inserting, h.valued, h.inserting.rep, fun b hb => ⟨hb, rfl⟩, hr, fun p hp => ?_⟩
  cases hp

theorem iterating_act {s : SkipThreads K V} (a : SkipAct K V)
    (h : ∃ base lv base0 lv0, Iterating s base lv base0 lv0) :
    ∃ base lv base0 lv0, Iterating (s.act a) base lv base0 lv0 := by
  obtain ⟨base, lv, base0, lv0, h⟩ := h
  have hsub : ∀ b ∈ base0, b ∈ base := fun b hb => (h.kept b hb).1
  have hrep := h.inserting.rep
  cases a with
  | insert k v height =>
      rw [SkipThreads.act]
      cases hw : s.writer with
      | idle =>
          have hinserting := h.inserting
          rw [hw] at hinserting
          obtain ⟨base', lv', hwrote⟩ := hinserting.begin h.valued k v height
          exact ⟨base', lv', base0, lv0,
            h.wrote (fun p hp => List.mem_append_left _ hp) hwrote⟩
      | _ => exact ⟨base, lv, base0, lv0, h⟩
  | store =>
      obtain ⟨base', lv', hwrote⟩ := h.inserting.store h.valued
      exact ⟨base', lv', base0, lv0, h.wrote (fun p hp => hp) hwrote⟩
  | seek target =>
      exact ⟨base, lv, base, lv, h.restart (.seeking rfl rfl (.inl rfl))⟩
  | seek_to_first =>
      exact ⟨base, lv, base, lv, h.restart (Reading.first hrep fun b hb => hb)⟩
  | load =>
      rw [SkipThreads.act]
      cases hr : s.reader with
      | seeking t x lvl =>
          have hreading := h.reading
          rw [hr] at hreading
          have hload := hreading.load hrep hsub
          refine ⟨base, lv, base0, lv0, ?_⟩
          cases hround : s.list.search_round t x lvl with
          | at_ y l =>
              rw [hround] at hload
              simp only [hround]
              exact h.read hload
          | found node =>
              rw [hround] at hload
              simp only [hround]
              exact h.read hload
      | _ => exact ⟨base, lv, base0, lv0, h⟩
  | value =>
      rw [SkipThreads.act]
      cases hr : s.reader with
      | on node =>
          cases node with
          | none => exact ⟨base, lv, base0, lv0, h⟩
          | some x =>
              have hreading := h.reading
              rw [hr] at hreading
              refine ⟨base, lv, base0, lv0, h.inserting, h.valued, h.start, h.kept, hreading,
                fun p hp => ?_⟩
              obtain hp | hp := List.mem_append.mp hp
              · exact h.values p hp
              · rw [List.mem_singleton.mp hp]
                cases hreading with
                | on seen hnode => exact h.valued x (hnode x rfl).1
      | _ => exact ⟨base, lv, base0, lv0, h⟩
  | next =>
      rw [SkipThreads.act]
      cases hr : s.reader with
      | on node =>
          cases node with
          | none => exact ⟨base, lv, base0, lv0, h⟩
          | some x =>
              have hreading := h.reading
              rw [hr] at hreading
              exact ⟨base, lv, base0, lv0, h.read (hreading.next hrep hsub)⟩
      | _ => exact ⟨base, lv, base0, lv0, h⟩

theorem Iterating.safe {s : SkipThreads K V} {base : List Addr} {lv : Addr → Nat}
    {base0 : List Addr} {lv0 : Addr → Nat} (h : Iterating s base lv base0 lv0) :
    SafeIteration s := by
  have hseen := h.reading.seen
  refine ⟨hseen.increasing, hseen.above, fun k hk => ?_, fun x hx hfrom hlast => ?_, h.values⟩
  · obtain ⟨a, ha, rfl⟩ := hseen.known k hk
    obtain ⟨v, -, hin⟩ := h.valued a ha
    exact ⟨v, hin⟩
  · have hmem := linkedIn_mem h.start hx
    obtain ⟨-, hkey⟩ := h.kept x hmem
    obtain ⟨last, hvisited, hle⟩ := hlast
    rw [← hkey] at hfrom hle ⊢
    have hin := hseen.complete x hmem hfrom ⟨last, List.mem_of_getLast? hvisited, hle⟩
    exact List.count_eq_one_of_mem (hseen.increasing.imp fun hlt => ne_of_lt hlt) hin

/-- However the loads of the reader fall between the stores of the writer, its
iteration is safe. -/
theorem iteration_safe [Inhabited K] (acts : List (SkipAct K V)) :
    SafeIteration (acts.foldl SkipThreads.act .new) := by
  have hnew : Rep (.new : SkipList K V) [] (SkipList.new : SkipList K V).height := by
    obtain ⟨base, hrep, hcount, -⟩ := isMap_new (K := K) (V := V)
    have hnil : base = [] := List.length_eq_zero_iff.mp hcount.symm
    rw [← hnil]
    exact hrep
  have hstart : ∃ base lv base0 lv0, Iterating (.new : SkipThreads K V) base lv base0 lv0 := by
    refine ⟨[], _, [], _, .idle hnew, fun a ha => ?_, hnew, fun b hb => ?_,
      .idle (seen_start _ _ _ _), fun p hp => ?_⟩
    · cases ha
    · cases hb
    · cases hp
  obtain ⟨base, lv, base0, lv0, h⟩ := Run.invariant
    (I := fun s : SkipThreads K V => ∃ base lv base0 lv0, Iterating s base lv base0 lv0)
    (fun s a hs => iterating_act a hs) acts hstart
  exact h.safe

example : (([.insert 5 () 0, .store, .store, .store, .seek_to_first, .insert 7 () 1, .store,
    .store, .store, .next] : List (SkipAct Nat Unit)).foldl SkipThreads.act .new).visited =
      [5, 7] := rfl

end Kronos
