import Kronos.Proofs.SkipList

/-!
# Inserting into a skip list

A new node is allocated, set up and then linked in level by level from the
bottom. `Linking` is the state with `n` on the first `i` levels; each of the two
stores of a level keeps it, the second with `i + 1`. The predecessors the search
has written to `prev` stay the right ones, as no level but the one that is
stored to changes.
-/

namespace Kronos.SkipList

open Linked

variable {K V : Type}

/-! ## What the stores leave alone -/

/-- The nodes say the same of themselves, and the list is as large. -/
structure SameNodes (s s' : SkipList K V) : Prop where
  key : s'.key = s.key
  height : s'.height = s.height
  value : s'.value = s.value
  allocated : s'.allocated = s.allocated
  max_height : s'.max_height = s.max_height
  count : s'.count = s.count

theorem SameNodes.refl (s : SkipList K V) : SameNodes s s := ⟨rfl, rfl, rfl, rfl, rfl, rfl⟩

theorem SameNodes.trans {a b c : SkipList K V} (h : SameNodes a b) (h' : SameNodes b c) :
    SameNodes a c :=
  ⟨h'.key.trans h.key, h'.height.trans h.height, h'.value.trans h.value,
    h'.allocated.trans h.allocated, h'.max_height.trans h.max_height, h'.count.trans h.count⟩

theorem same_store_next (s : SkipList K V) (x : Addr) (level : Nat) (n : Option Addr) :
    SameNodes s (s.store_next x level n) := by
  refine ⟨funext fun y => ?_, funext fun y => ?_, funext fun y => ?_, rfl, rfl, rfl⟩
  · exact key_store_next s x y level n
  · exact height_store_next s x y level n
  · exact value_store_next s x y level n

/-! ## A node on some of its levels -/

/-- How many levels a node is on while `n` is on `i`. -/
def levelsWith (s : SkipList K V) (n : Addr) (i : Nat) (a : Addr) : Nat :=
  if a = n then i else s.height a

/-- Level 0, where `n` is as soon as it is on any level. -/
def around (lo : List Addr) (n : Addr) (hi : List Addr) (i : Nat) : List Addr :=
  lo ++ ((if i = 0 then [] else [n]) ++ hi)

theorem mem_around {lo hi : List Addr} {n a : Addr} {i : Nat} :
    a ∈ around lo n hi i ↔ a ∈ lo ∨ (i ≠ 0 ∧ a = n) ∨ a ∈ hi := by
  rw [around, List.mem_append, List.mem_append]
  by_cases hi : i = 0
  · simp [hi]
  · simp [hi]

/-- A level of it. -/
theorem level_around (s : SkipList K V) {lo hi : List Addr} {n : Addr} (hlo : n ∉ lo)
    (hhi : n ∉ hi) (i l : Nat) :
    (around lo n hi i).filter (l < s.levelsWith n i ·) =
      lo.filter (l < s.height ·) ++
        ((if l < i then [n] else []) ++ hi.filter (l < s.height ·)) := by
  have hother : ∀ m : List Addr, n ∉ m →
      m.filter (l < s.levelsWith n i ·) = m.filter (l < s.height ·) := by
    intro m hm
    refine List.filter_congr fun a ha => ?_
    have hne : a ≠ n := fun heq => hm (heq ▸ ha)
    rw [levelsWith, if_neg hne]
  have hn : (if i = 0 then [] else [n]).filter (l < s.levelsWith n i ·) =
      if l < i then [n] else [] := by
    by_cases hzero : i = 0
    · simp [hzero]
    · rw [if_neg hzero]
      by_cases hl : l < i
      · rw [if_pos hl]
        exact List.filter_cons_of_pos (by simpa [levelsWith] using hl)
      · rw [if_neg hl]
        exact List.filter_cons_of_neg (by simpa [levelsWith] using hl)
  rw [around, List.filter_append, List.filter_append, hother lo hlo, hother hi hhi, hn]

variable [LinearOrder K]

/-- The node `n` with the key `k` is on `i` of its `h` levels, between `lo` and `hi`. -/
structure Linking (s : SkipList K V) (lo hi : List Addr) (n : Addr) (k : K) (h i : Nat) :
    Prop where
  rep : Rep s (around lo n hi i) (s.levelsWith n i)
  fits : i ≤ h ∧ h ≤ s.max_height
  place : head < n ∧ n < s.allocated
  high : s.height n = h
  keyed : s.key n = k
  valued : (s.value n).isSome
  below : ∀ a ∈ lo, s.key a < k
  above : ∀ a ∈ hi, k < s.key a

/-- The predecessor of a new node on a level. -/
def predOf (s : SkipList K V) (lo : List Addr) (l : Nat) : Addr :=
  lastOf head (lo.filter (l < s.height ·))

namespace Linking

variable {s : SkipList K V} {lo hi : List Addr} {n : Addr} {k : K} {h i : Nat}

theorem not_low (hl : Linking s lo hi n k h i) : n ∉ lo := fun hmem =>
  absurd (hl.below n hmem) (by rw [hl.keyed]; exact lt_irrefl _)

theorem not_high (hl : Linking s lo hi n k h i) : n ∉ hi := fun hmem =>
  absurd (hl.above n hmem) (by rw [hl.keyed]; exact lt_irrefl _)

/-- The level as the pointers have it. -/
theorem level (hl : Linking s lo hi n k h i) (l : Nat) :
    Links (s.load_next · l) head (lo.filter (l < s.height ·) ++
      ((if l < i then [n] else []) ++ hi.filter (l < s.height ·))) := by
  rw [← level_around s hl.not_low hl.not_high]
  exact hl.rep.links l

theorem old_mem (hl : Linking s lo hi n k h i) {a : Addr} (ha : a ∈ lo ++ hi) :
    a ∈ around lo n hi i ∧ a ≠ n := by
  obtain ha | ha := List.mem_append.mp ha
  · exact ⟨mem_around.mpr (.inl ha), fun heq => hl.not_low (heq ▸ ha)⟩
  · exact ⟨mem_around.mpr (.inr (.inr ha)), fun heq => hl.not_high (heq ▸ ha)⟩

/-- `n` has its place in the order whether it is linked or not. -/
theorem sorted (hl : Linking s lo hi n k h i) (j : Nat) :
    Keyed.Sorted s.key (around lo n hi j) := by
  have hold : Keyed.Sorted s.key (lo ++ hi) := by
    refine hl.rep.sorted.sublist ?_
    exact (List.sublist_append_right _ hi).append_left lo
  obtain ⟨hlo, hhi, hcross⟩ := List.pairwise_append.mp hold
  refine List.pairwise_append.mpr ⟨hlo, List.pairwise_append.mpr ⟨?_, hhi, ?_⟩, ?_⟩
  · split
    · exact List.Pairwise.nil
    · exact List.pairwise_singleton _ _
  · intro a ha b hb
    split at ha
    · cases ha
    · rw [List.mem_singleton.mp ha, hl.keyed]
      exact hl.above b hb
  · intro a ha b hb
    obtain hb | hb := List.mem_append.mp hb
    · split at hb
      · cases hb
      · rw [List.mem_singleton.mp hb, hl.keyed]
        exact hl.below a ha
    · exact hcross a ha b hb

/-- All but the pointers, after stores and with `n` on `j` levels. -/
theorem rebuild (hl : Linking s lo hi n k h i) {s' : SkipList K V} (hsame : SameNodes s s')
    {j : Nat} (hj : j ≤ h) (hlinks : ∀ l, Links (s'.load_next · l) head
      (lo.filter (l < s.height ·) ++
        ((if l < j then [n] else []) ++ hi.filter (l < s.height ·)))) :
    Linking s' lo hi n k h j := by
  have hlv : s'.levelsWith n j = s.levelsWith n j := by
    funext a
    rw [levelsWith, levelsWith, hsame.height]
  refine ⟨⟨?_, ?_, ?_, fun l => ?_, ?_, ?_, ?_⟩, ⟨hj, ?_⟩, ?_, ?_, ?_, ?_, ?_, ?_⟩
  · rw [hsame.key]
    exact hl.sorted j
  · intro a ha
    rw [hsame.allocated]
    obtain ha | ⟨-, rfl⟩ | ha := mem_around.mp ha
    · exact hl.rep.nodes a (mem_around.mpr (.inl ha))
    · exact hl.place
    · exact hl.rep.nodes a (mem_around.mpr (.inr (.inr ha)))
  · intro a ha
    rw [hlv, hsame.height, hsame.max_height]
    by_cases hn : a = n
    · subst hn
      rw [levelsWith, if_pos rfl, hl.high]
      obtain ha | ⟨hj0, -⟩ | ha := mem_around.mp ha
      · exact absurd ha hl.not_low
      · exact ⟨Nat.pos_of_ne_zero hj0, hj, hl.fits.2⟩
      · exact absurd ha hl.not_high
    · have hold : a ∈ around lo n hi i := by
        obtain ha | ⟨-, rfl⟩ | ha := mem_around.mp ha
        · exact mem_around.mpr (.inl ha)
        · exact absurd rfl hn
        · exact mem_around.mpr (.inr (.inr ha))
      have hlevels := hl.rep.levels a hold
      rw [levelsWith, if_neg hn] at hlevels ⊢
      exact hlevels
  · rw [hlv, level_around s hl.not_low hl.not_high]
    exact hlinks l
  · rw [hsame.max_height]
    exact hl.rep.tall
  · rw [hsame.allocated, hsame.height]
    exact hl.rep.head_node
  · intro a ha
    rw [hsame.value]
    obtain ha | ⟨-, rfl⟩ | ha := mem_around.mp ha
    · exact hl.rep.vals a (mem_around.mpr (.inl ha))
    · exact hl.valued
    · exact hl.rep.vals a (mem_around.mpr (.inr (.inr ha)))
  · rw [hsame.max_height]
    exact hl.fits.2
  · rw [hsame.allocated]
    exact hl.place
  · rw [hsame.height]
    exact hl.high
  · rw [hsame.key]
    exact hl.keyed
  · rw [hsame.value]
    exact hl.valued
  · rw [hsame.key]
    exact hl.below
  · rw [hsame.key]
    exact hl.above

/-- The pointer of `n` at a level it is not on is nobody's way. -/
theorem prepare (hl : Linking s lo hi n k h i) (c : Option Addr) :
    Linking (s.store_next n i c) lo hi n k h i := by
  refine hl.rebuild (same_store_next s n i c) hl.fits.1 fun l => ?_
  refine (hl.level l).congr fun y hy => ?_
  rw [load_next_store, if_neg]
  rintro ⟨rfl, rfl⟩
  obtain rfl | hy := List.mem_cons.mp hy
  · exact absurd hl.place.1 (lt_irrefl _)
  · rw [if_neg (lt_irrefl _), List.nil_append, ← List.filter_append] at hy
    exact (hl.old_mem (List.mem_filter.mp hy).1).2 rfl

/-- What lies behind the predecessor on a level `n` is not on. -/
theorem next_pred (hl : Linking s lo hi n k h i) :
    s.load_next (predOf s lo i) i = (hi.filter (i < s.height ·)).head? := by
  have hlevel := hl.level i
  rw [if_neg (lt_irrefl _), List.nil_append] at hlevel
  exact hlevel.drop.head?

/-- A store to the predecessor puts `n` on the level. -/
theorem link (hl : Linking s lo hi n k h i) (hi' : i < h)
    (hready : s.load_next n i = s.load_next (predOf s lo i) i) :
    Linking (s.store_next (predOf s lo i) i (some n)) lo hi n k h (i + 1) := by
  refine hl.rebuild (same_store_next s _ i _) hi' fun l => ?_
  by_cases hl' : l = i
  · subst hl'
    have hlevel := hl.level l
    rw [if_neg (lt_irrefl _), List.nil_append] at hlevel
    rw [if_pos (Nat.lt_succ_self _)]
    have hnodup := hl.rep.nodup
    have hn : n ≠ predOf s lo l := by
      intro heq
      obtain ⟨hhead, -⟩ | hmem := lastOf_mem head (lo.filter (l < s.height ·))
      · rw [← predOf, ← heq] at hhead
        exact absurd (hhead ▸ hl.place.1) (lt_irrefl _)
      · rw [← predOf, ← heq] at hmem
        exact hl.not_low (List.mem_filter.mp hmem).1
    refine hlevel.insert ?_ ?_ ?_ fun y _ hy => ?_
    · refine hnodup.sublist (List.Sublist.cons_cons _ ?_)
      refine List.Sublist.trans ?_ (List.filter_sublist (p := (l < s.levelsWith n l ·)))
      rw [level_around s hl.not_low hl.not_high, if_neg (lt_irrefl _), List.nil_append]
    · rw [load_next_store, ← predOf, if_pos ⟨rfl, rfl⟩]
    · rw [load_next_store, if_neg fun h => hn h.1, hready, hl.next_pred]
    · rw [load_next_store, if_neg fun h => hy h.1]
  · have hsame : (l < i + 1) = (l < i) := by
      rw [eq_iff_iff]
      omega
    simp only [hsame]
    refine (hl.level l).congr fun y _ => ?_
    rw [load_next_store, if_neg fun h => hl' h.2]

/-- On all its levels it is a node like the others. -/
theorem done (hl : Linking s lo hi n k h h) (hpos : 0 < h) : Rep s (lo ++ n :: hi) s.height := by
  have hlv : s.levelsWith n h = s.height := by
    funext a
    rw [levelsWith]
    split
    · next heq => rw [heq, hl.high]
    · rfl
  have hbase : around lo n hi h = lo ++ n :: hi := by
    rw [around, if_neg (Nat.pos_iff_ne_zero.mp hpos)]
    rfl
  have hrep := hl.rep
  rw [hlv, hbase] at hrep
  exact hrep

/-- The loop over the levels. -/
theorem run (hl : Linking s lo hi n k h 0) {prev : Prev}
    (hprev : ∀ j < h, prev j = some (predOf s lo j)) {j : Nat} (hj : j ≤ h) :
    ∃ s', (List.range j).foldlM (link_level n prev) s = some s' ∧ SameNodes s s' ∧
      Linking s' lo hi n k h j := by
  induction j with
  | zero => exact ⟨s, rfl, .refl s, hl⟩
  | succ j ih =>
      obtain ⟨t, hrun, hsame, ht⟩ := ih (by omega)
      have hpred : predOf t lo j = predOf s lo j := by rw [predOf, hsame.height, predOf]
      let t₁ := t.store_next n j (t.load_next (predOf t lo j) j)
      have hsame₁ : SameNodes t t₁ := same_store_next t n j _
      have hpred₁ : predOf t₁ lo j = predOf t lo j := by rw [predOf, hsame₁.height, predOf]
      have ht₁ : Linking t₁ lo hi n k h j := ht.prepare _
      have hready : t₁.load_next n j = t₁.load_next (predOf t₁ lo j) j := by
        rw [ht₁.next_pred, hsame₁.height, ← ht.next_pred, load_next_store, if_pos ⟨rfl, rfl⟩]
      have ht₂ := ht₁.link hj hready
      rw [hpred₁] at ht₂
      refine ⟨_, ?_, (hsame.trans hsame₁).trans (same_store_next t₁ _ j _), ht₂⟩
      rw [List.range_succ, List.foldlM_append, hrun]
      simp [link_level, hprev j hj, hpred, t₁]

end Linking

/-! ## Before the first level -/

theorem Rep.raise {s : SkipList K V} {base : List Addr} {lv : Addr → Nat} (hr : Rep s base lv)
    {h : Nat} (hge : s.max_height ≤ h) (hle : h ≤ kMaxHeight) :
    Rep (s.store_max_height h) base lv := by
  refine ⟨hr.sorted, hr.nodes, fun a ha => ?_, hr.links, ?_, hr.head_node, hr.vals⟩
  · obtain ⟨hpos, hlv, hmax⟩ := hr.levels a ha
    exact ⟨hpos, hlv, hmax.trans hge⟩
  · exact ⟨Nat.lt_of_lt_of_le hr.tall.1 hge, hle⟩

/-- A new node is on no level. -/
theorem Rep.linking {s : SkipList K V} {lo hi : List Addr} (hr : Rep s (lo ++ hi) s.height)
    {k : K} (v : V) {h : Nat} (hh : h ≤ s.max_height) (hlo : ∀ a ∈ lo, s.key a < k)
    (hhi : ∀ a ∈ hi, k < s.key a) : Linking (s.new_node k v h) lo hi s.allocated k h 0 := by
  have hne : ∀ a ∈ lo ++ hi, a ≠ s.allocated := fun a ha heq =>
    absurd (hr.nodes a ha).2 (by rw [heq]; exact lt_irrefl _)
  have hold : ∀ a, a ≠ s.allocated → (s.new_node k v h).heap a = s.heap a :=
    fun a ha => heap_new_node_ne s a v h k ha
  have hkey : ∀ a ∈ lo ++ hi, (s.new_node k v h).key a = s.key a := fun a ha => by
    rw [key, hold a (hne a ha), key]
  have hheight : ∀ a ∈ lo ++ hi, (s.new_node k v h).height a = s.height a := fun a ha => by
    rw [height, hold a (hne a ha), height]
  have hlv : ∀ a ∈ lo ++ hi, (s.new_node k v h).levelsWith s.allocated 0 a = s.height a :=
    fun a ha => by rw [levelsWith, if_neg (hne a ha), hheight a ha]
  have hhead : head ≠ s.allocated := Nat.ne_of_lt hr.head_node.1
  have hself := heap_new_node s v h k
  refine ⟨⟨?_, fun a ha => ?_, fun a ha => ?_, fun l => ?_, hr.tall, ?_, fun a ha => ?_⟩,
    ⟨Nat.zero_le _, hh⟩, ⟨hr.head_node.1, Nat.lt_succ_self _⟩, ?_, ?_, ?_, fun a ha => ?_,
    fun a ha => ?_⟩
  · refine hr.sorted.imp_of_mem fun {a b} ha hb hlt => ?_
    rw [hkey a ha, hkey b hb]
    exact hlt
  · exact ⟨(hr.nodes a ha).1, Nat.lt_succ_of_lt (hr.nodes a ha).2⟩
  · rw [hlv a ha, hheight a ha]
    exact hr.levels a ha
  · have hfilter : (lo ++ hi).filter (l < (s.new_node k v h).levelsWith s.allocated 0 ·) =
        (lo ++ hi).filter (l < s.height ·) :=
      List.filter_congr fun a ha => by rw [hlv a ha]
    rw [around, if_pos rfl, List.nil_append, hfilter]
    refine (hr.links l).congr fun y hy => ?_
    have hy' : y ≠ s.allocated := by
      obtain rfl | hy := List.mem_cons.mp hy
      · exact hhead
      · exact hne y (List.mem_filter.mp hy).1
    rw [load_next, hold y hy', load_next]
  · refine ⟨Nat.lt_succ_of_lt hr.head_node.1, ?_⟩
    rw [height, hold head hhead]
    exact hr.head_node.2
  · rw [value, hold a (hne a ha)]
    exact hr.vals a ha
  · rw [height, hself]
  · rw [key, hself]
  · rw [value, hself]
    rfl
  · rw [hkey a (List.mem_append_left _ ha)]
    exact hlo a ha
  · rw [hkey a (List.mem_append_right _ ha)]
    exact hhi a ha

/-! ## A value over another -/

theorem Rep.replace {s : SkipList K V} {base : List Addr} {lv : Addr → Nat} (hr : Rep s base lv)
    (x : Addr) (v : V) : Rep (s.store_val_ptr x v) base lv := by
  have hkey : (s.store_val_ptr x v).key = s.key := funext fun a => key_store_val s x a v
  have hheight : (s.store_val_ptr x v).height = s.height :=
    funext fun a => height_store_val s x a v
  refine ⟨?_, hr.nodes, ?_, fun l => ?_, hr.tall, ?_, fun a ha => ?_⟩
  · rw [hkey]
    exact hr.sorted
  · rw [hheight]
    exact hr.levels
  · exact (hr.links l).congr fun y _ => load_next_store_val s x y l v
  · rw [hheight]
    exact hr.head_node
  · rw [value_store_val]
    split
    · rfl
    · exact hr.vals a ha

/-! ## The map -/

/-- Keys and values along level 0. -/
def contents (s : SkipList K V) (base : List Addr) : List (K × V) :=
  base.filterMap fun a => (s.value a).map (s.key a, ·)

omit [LinearOrder K] in
theorem contents_append (s : SkipList K V) (a b : List Addr) :
    s.contents (a ++ b) = s.contents a ++ s.contents b := List.filterMap_append

omit [LinearOrder K] in
theorem contents_cons (s : SkipList K V) {x : Addr} {v : V} (hv : s.value x = some v)
    (base : List Addr) : s.contents (x :: base) = (s.key x, v) :: s.contents base := by
  rw [contents, List.filterMap_cons, hv]
  rfl

omit [LinearOrder K] in
theorem contents_congr {s s' : SkipList K V} {base : List Addr}
    (h : ∀ a ∈ base, s'.key a = s.key a ∧ s'.value a = s.value a) :
    s'.contents base = s.contents base :=
  List.filterMap_congr fun a ha => by rw [(h a ha).1, (h a ha).2]

omit [LinearOrder K] in
theorem mem_contents {s : SkipList K V} {base : List Addr} {p : K × V}
    (h : p ∈ s.contents base) : ∃ a ∈ base, s.key a = p.1 ∧ s.value a = some p.2 := by
  obtain ⟨a, ha, hp⟩ := List.mem_filterMap.mp h
  obtain ⟨v, hv, rfl⟩ := Option.map_eq_some_iff.mp hp
  exact ⟨a, ha, rfl, hv⟩

theorem Rep.contents_keys {s : SkipList K V} {base : List Addr} {lv : Addr → Nat}
    (hr : Rep s base lv) : (s.contents base).map Prod.fst = base.map s.key := by
  have hvals := hr.vals
  clear hr
  induction base with
  | nil => rfl
  | cons a base ih =>
      obtain ⟨v, hv⟩ := Option.isSome_iff_exists.mp (hvals a List.mem_cons_self)
      rw [contents_cons s hv, List.map_cons, List.map_cons,
        ih fun b hb => hvals b (List.mem_cons_of_mem _ hb)]

/-- The skip list is the map `m`, a list in key order. -/
def IsMap (s : SkipList K V) (m : List (K × V)) : Prop :=
  ∃ base, Rep s base s.height ∧ s.count = base.length ∧ m = s.contents base

theorem isMap_new [Inhabited K] : IsMap (.new : SkipList K V) [] := by
  refine ⟨[], ⟨List.Pairwise.nil, ?_, ?_, fun l => rfl, ?_, ?_, ?_⟩, rfl, rfl⟩
  · intro a ha
    cases ha
  · intro a ha
    cases ha
  · exact ⟨Nat.zero_lt_one, show 1 ≤ kMaxHeight by decide⟩
  · exact ⟨Nat.zero_lt_one, rfl⟩
  · intro a ha
    cases ha

theorem IsMap.sorted {s : SkipList K V} {m : List (K × V)} (h : IsMap s m) :
    Keyed.Sorted Prod.fst m := by
  obtain ⟨base, hrep, -, rfl⟩ := h
  refine List.pairwise_map.mp ?_
  rw [hrep.contents_keys]
  exact List.pairwise_map.mpr hrep.sorted

theorem IsMap.count_eq {s : SkipList K V} {m : List (K × V)} (h : IsMap s m) :
    s.count = m.length := by
  obtain ⟨base, hrep, hcount, rfl⟩ := h
  have hlen := congrArg List.length hrep.contents_keys
  rw [List.length_map, List.length_map] at hlen
  rw [hcount, hlen]

theorem IsMap.contains_eq {s : SkipList K V} {m : List (K × V)} (h : IsMap s m) (k : K) :
    ∃ b, s.contains k = some b ∧ (b = true ↔ k ∈ m.map Prod.fst) := by
  obtain ⟨base, hrep, -, rfl⟩ := h
  obtain ⟨b, hb, hiff⟩ := hrep.contains_eq k
  refine ⟨b, hb, ?_⟩
  rw [hiff, hrep.contents_keys, List.mem_map]

/-! ## The whole insert -/

theorem Rep.recount {s : SkipList K V} {base : List Addr} {lv : Addr → Nat} (hr : Rep s base lv)
    (c : Nat) : Rep { s with count := c } base lv :=
  ⟨hr.sorted, hr.nodes, hr.levels, hr.links, hr.tall, hr.head_node, hr.vals⟩

theorem insert_over {s : SkipList K V} {k : K} {x y : Addr} {prev : Prev}
    (hfind : s.find_prev k = some (x, prev)) (hload : s.load_next x 0 = some y)
    (hkey : s.has_key k (some y) = true) (v : V) (height : Fin kMaxHeight) :
    s.insert k v height = some (s.store_val_ptr y v) := by
  rw [insert, hfind]
  simp only [Option.bind_eq_bind, Option.bind_some, hload, hkey]

theorem insert_new {s : SkipList K V} {k : K} {x : Addr} {prev : Prev}
    (hfind : s.find_prev k = some (x, prev)) (hkey : s.has_key k (s.load_next x 0) = false)
    (v : V) (height : Fin kMaxHeight) :
    s.insert k v height =
      (((List.range (height.val + 1)).foldlM
        (link_level s.allocated (raise_prev s.max_height (height.val + 1) prev))
        ((s.store_max_height (max s.max_height (height.val + 1))).new_node k v
          (height.val + 1))).map fun s' => { s' with count := s'.count + 1 }) := by
  have hraise : (if s.max_height < height.val + 1 then s.store_max_height (height.val + 1)
      else s) = s.store_max_height (max s.max_height (height.val + 1)) := by
    split
    · next hlt => rw [max_eq_right hlt.le]
    · next hge => rw [max_eq_left (not_lt.mp hge)]; rfl
  have halloc : (s.store_max_height (max s.max_height (height.val + 1))).allocated =
      s.allocated := rfl
  rw [insert, hfind]
  simp only [Option.bind_eq_bind, Option.bind_some, hraise]
  cases hload : s.load_next x 0 with
  | none => simp only [halloc, Option.map_eq_bind, Function.comp_def]
  | some y =>
      rw [hload] at hkey
      simp only [hkey, halloc, Option.map_eq_bind, Function.comp_def]

theorem IsMap.over {s : SkipList K V} {lo hi : List Addr} {y : Addr} {k : K} {v : V}
    (hr : Rep s (lo ++ y :: hi) s.height) (hcount : s.count = (lo ++ y :: hi).length)
    (hlo : ∀ a ∈ lo, s.key a < k) (hy : s.key y = k) :
    IsMap (s.store_val_ptr y v) (Keyed.upsert Prod.fst (k, v) (s.contents (lo ++ y :: hi))) := by
  obtain ⟨old, hold⟩ := Option.isSome_iff_exists.mp
    (hr.vals y (List.mem_append_right _ List.mem_cons_self))
  have hrest : ∀ m : List Addr, (∀ a ∈ m, a ≠ y) →
      (s.store_val_ptr y v).contents m = s.contents m := by
    intro m hm
    refine contents_congr fun a ha => ⟨key_store_val s y a v, ?_⟩
    rw [value_store_val, if_neg (hm a ha)]
  have hnodup := (List.nodup_cons.mp hr.nodup).2
  obtain ⟨-, htail, hcross⟩ := List.nodup_append.mp hnodup
  have hheight : (s.store_val_ptr y v).height = s.height :=
    funext fun a => height_store_val s y a v
  have hrep := hr.replace y v
  rw [← hheight] at hrep
  refine ⟨lo ++ y :: hi, hrep, hcount, ?_⟩
  have hnew : (s.store_val_ptr y v).value y = some v := by rw [value_store_val, if_pos rfl]
  rw [contents_append, contents_append, contents_cons s hold, contents_cons _ hnew,
    key_store_val, hrest lo fun a ha => hcross a ha y List.mem_cons_self,
    hrest hi fun a ha heq => (List.nodup_cons.mp htail).1 (heq ▸ ha), hy]
  refine Keyed.upsert_over (a := (k, v)) (x := (k, old)) (fun p hp => ?_) rfl _
  obtain ⟨a, ha, hkey, -⟩ := mem_contents hp
  rw [← hkey]
  exact hlo a ha

theorem IsMap.between {s : SkipList K V} {lo hi : List Addr} {k : K} {v : V}
    (hr : Rep s (lo ++ hi) s.height) (hcount : s.count = (lo ++ hi).length)
    (hlo : ∀ a ∈ lo, s.key a < k) (hhi : ∀ a ∈ hi, k < s.key a) {h : Nat} (hpos : 0 < h)
    (hh : h ≤ s.max_height) {prev : Prev} (hprev : ∀ j < h, prev j = some (predOf s lo j)) :
    ∃ s', (List.range h).foldlM (link_level s.allocated prev) (s.new_node k v h) = some s' ∧
      IsMap { s' with count := s'.count + 1 }
        (Keyed.upsert Prod.fst (k, v) (s.contents (lo ++ hi))) := by
  have hlink := hr.linking v hh hlo hhi
  have hold : ∀ a ∈ lo ++ hi, (s.new_node k v h).heap a = s.heap a := fun a ha =>
    heap_new_node_ne s a v h k fun heq =>
      absurd (hr.nodes a ha).2 (by rw [heq]; exact lt_irrefl _)
  have hpred : ∀ j < h, prev j = some (predOf (s.new_node k v h) lo j) := by
    intro j hj
    rw [hprev j hj, predOf, predOf]
    congr 2
    refine List.filter_congr fun a ha => ?_
    rw [height, height, hold a (List.mem_append_left _ ha)]
  obtain ⟨s', hrun, hsame, hdone⟩ := hlink.run hpred (Nat.le_refl h)
  refine ⟨s', hrun, lo ++ s.allocated :: hi, ?_, ?_, ?_⟩
  · exact (hdone.done hpos).recount (s'.count + 1)
  · have hcount' : s'.count = s.count := hsame.count
    show s'.count + 1 = _
    rw [hcount', hcount, List.length_append, List.length_append, List.length_cons]
    omega
  · have hrest : ∀ m : List Addr, (∀ a ∈ m, a ∈ lo ++ hi) → s'.contents m = s.contents m := by
      intro m hm
      refine contents_congr fun a ha => ?_
      rw [hsame.key, hsame.value, key, value, hold a (hm a ha), key, value]
      exact ⟨rfl, rfl⟩
    have hvalue : s'.value s.allocated = some v := by
      rw [hsame.value, value, heap_new_node]
    show _ = s'.contents (lo ++ s.allocated :: hi)
    rw [contents_append, contents_append, contents_cons s' hvalue, hdone.keyed,
      hrest lo fun a ha => List.mem_append_left _ ha,
      hrest hi fun a ha => List.mem_append_right _ ha]
    refine Keyed.upsert_between (a := (k, v)) (fun p hp => ?_) fun p hp => ?_
    · obtain ⟨a, ha, hkey, -⟩ := mem_contents hp
      rw [← hkey]
      exact hlo a ha
    · obtain ⟨a, ha, hkey, -⟩ := mem_contents hp
      rw [← hkey]
      exact hhi a ha

/-- The elements of `prev` that were not found are set to the head. -/
theorem Rep.raise_prev_eq {s : SkipList K V} {lo hi : List Addr} (hr : Rep s (lo ++ hi) s.height)
    {k : K} (hlo : ∀ a ∈ lo, s.key a < k) (hhi : ∀ a ∈ hi, k < s.key a) {prev : Prev}
    (hprev : ∀ j < s.max_height, prev j = some (Rep.pred s (lo ++ hi) s.height k j)) {h j : Nat}
    (hj : j < h) : raise_prev s.max_height h prev j = some (predOf s lo j) := by
  have hlow : (lo ++ hi).filter (s.key · < k) = lo := by
    rw [List.filter_append, List.filter_eq_self.mpr fun a ha => decide_eq_true (hlo a ha),
      List.filter_eq_nil_iff.mpr fun a ha => by simpa using (hhi a ha).le, List.append_nil]
  rw [raise_prev]
  split
  · next hhigh =>
      have hnone : lo.filter (j < s.height ·) = [] := by
        refine List.filter_eq_nil_iff.mpr fun a ha => ?_
        have hmax := (hr.levels a (List.mem_append_left _ ha)).2.2
        rw [decide_eq_true_eq]
        omega
      rw [predOf, hnone]
      rfl
  · next hfound =>
      rw [hprev j (by omega), Rep.pred, hlow, predOf]

/-- What the search of an insert finds: the node of the key, or its place. -/
theorem Rep.find_cases {s : SkipList K V} {base : List Addr} (hr : Rep s base s.height) (k : K) :
    ∃ x prev, s.find_prev k = some (x, prev) ∧
      ((∃ lo y hi, base = lo ++ y :: hi ∧ (∀ a ∈ lo, s.key a < k) ∧ s.key y = k ∧
          s.load_next x 0 = some y ∧ s.has_key k (some y) = true) ∨
        ∃ lo hi, base = lo ++ hi ∧ (∀ a ∈ lo, s.key a < k) ∧ (∀ a ∈ hi, k < s.key a) ∧
          s.has_key k (s.load_next x 0) = false ∧
          ∀ h j, j < h → raise_prev s.max_height h prev j = some (predOf s lo j)) := by
  obtain ⟨prev, hfind, hprev⟩ := hr.find_prev_eq k
  have hsplit := hr.sorted.split k
  have hload : s.load_next (Rep.pred s base s.height k 0) 0 =
      (base.filter (k ≤ s.key ·)).head? := by
    rw [hr.pred_zero, hr.next_zero hsplit]
  have hlo : ∀ a ∈ base.filter (s.key · < k), s.key a < k := fun a ha =>
    of_decide_eq_true (List.mem_filter.mp ha).2
  refine ⟨_, prev, hfind, ?_⟩
  by_cases hex : ∃ a ∈ base, s.key a = k
  · have htest := (hr.has_key_iff k).mpr hex
    cases hfilter : base.filter (k ≤ s.key ·) with
    | nil =>
        rw [hfilter] at htest
        simp [has_key] at htest
    | cons y hi =>
        rw [hfilter, List.head?_cons] at hload htest
        rw [hfilter] at hsplit
        have hy : s.key y = k := by
          rw [Rep.has_key_eq] at htest
          exact of_decide_eq_true htest
        exact .inl ⟨_, y, hi, hsplit, hlo, hy, hload, htest⟩
  · have htest : s.has_key k (s.load_next (Rep.pred s base s.height k 0) 0) = false := by
      rw [hload, Bool.eq_false_iff]
      exact fun htest => hex ((hr.has_key_iff k).mp htest)
    have hhi : ∀ a ∈ base.filter (k ≤ s.key ·), k < s.key a := by
      intro a ha
      obtain ⟨hmem, hle⟩ := List.mem_filter.mp ha
      exact lt_of_le_of_ne (of_decide_eq_true hle) fun heq => hex ⟨a, hmem, heq.symm⟩
    refine .inr ⟨_, _, hsplit, hlo, hhi, htest, fun h j hj => ?_⟩
    generalize base.filter (s.key · < k) = lo at hsplit hlo
    generalize base.filter (k ≤ s.key ·) = hi at hsplit hhi
    subst hsplit
    exact hr.raise_prev_eq hlo hhi hprev hj

/-- An insert ends, and leaves the map with the new entry. -/
theorem IsMap.insert {s : SkipList K V} {m : List (K × V)} (h : IsMap s m) (k : K) (v : V)
    (height : Fin kMaxHeight) :
    ∃ s', s.insert k v height = some s' ∧ IsMap s' (Keyed.upsert Prod.fst (k, v) m) := by
  obtain ⟨base, hrep, hcount, rfl⟩ := h
  obtain ⟨x, prev, hfind, ⟨lo, y, hi, rfl, hlo, hy, hload, htest⟩ |
    ⟨lo, hi, rfl, hlo, hhi, htest, hprev⟩⟩ := hrep.find_cases k
  · exact ⟨_, insert_over hfind hload htest v height, .over hrep hcount hlo hy⟩
  · have hraised := hrep.raise (le_max_left s.max_height (height.val + 1))
      (max_le hrep.tall.2 height.isLt)
    obtain ⟨s', hrun, hholds⟩ := IsMap.between (v := v) hraised hcount hlo hhi
      (Nat.succ_pos height.val) (le_max_right _ _) fun j hj => hprev _ j hj
    refine ⟨_, ?_, hholds⟩
    rw [insert_new hfind htest]
    exact congrArg (Option.map fun s' : SkipList K V => { s' with count := s'.count + 1 }) hrun

end Kronos.SkipList
