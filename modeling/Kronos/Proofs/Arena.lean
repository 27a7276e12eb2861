import Kronos.Spec.Arena

/-!
# Nobody else has the bytes

The pointer of an arena is the end of what it has given out of the last block,
and the bytes from there to the end of the block are the remaining ones. A
region that is given next begins at the pointer, or a new block with it.
-/

namespace Kronos

open Spec

/-! ## What is given out -/

/-- In a block, and behind it the pointer if that is in the same block. -/
structure Below (a : BlockArena) (p : Pointer) (size : Nat) : Prop where
  inside : ∃ total, a.blocks[p.block]? = some total ∧ p.offset + size ≤ total
  before : ∀ q, a.ptr = some q → q.block = p.block → p.offset + size ≤ q.offset

/-- The pointer is in the last block, as far from its end as there are bytes remaining. -/
structure Bumped (a : BlockArena) : Prop where
  last : ∀ q, a.ptr = some q →
    q.block + 1 = a.blocks.length ∧ a.blocks[q.block]? = some (q.offset + a.remaining)
  empty : a.ptr = none → a.remaining = 0
  used : a.used = a.blocks.sum

structure Laid (g : Given) : Prop where
  bumped : Bumped g.arena
  regions : ∀ r ∈ g.regions, 0 < r.size → ∃ p, r.ptr = some p ∧ Below g.arena p r.size
  apart : g.regions.Pairwise fun r r' => regionBytes r ∩ regionBytes r' = ∅

/-- A call finds the bytes at the pointer, or in a block of its own. -/
theorem allocate_cases {a a' : BlockArena} {n : Nat} {new_ok : Bool} {ptr : Option Pointer}
    (h : a.allocate n new_ok = some (ptr, a')) :
    (n ≤ a.remaining ∧ ptr = a.ptr ∧ a'.remaining = a.remaining - n ∧ a'.used = a.used ∧
      a'.blocks = a.blocks ∧ a'.ptr = a.ptr.map fun p => { p with offset := p.offset + n }) ∨
    ∃ size, n ≤ size ∧ ptr = some ⟨a.blocks.length, 0⟩ ∧ a'.remaining = size - n ∧
      a'.used = a.used + size ∧ a'.blocks = a.blocks ++ [size] ∧
      a'.ptr = some ⟨a.blocks.length, n⟩ := by
  rw [BlockArena.allocate] at h
  split at h
  · next hroom =>
      cases h
      exact .inl ⟨hroom, rfl, rfl, rfl, rfl, rfl⟩
  · rw [BlockArena.slow_alloc] at h
    split at h
    · cases h
      refine .inr ⟨_, ?_, rfl, rfl, rfl, rfl, rfl⟩
      split <;> omega
    · cases h

section
variable {a a' : BlockArena} {n size : Nat} {new_ok : Bool} {ptr : Option Pointer}

theorem Bumped.allocate (h : Bumped a) (hcall : a.allocate n new_ok = some (ptr, a')) :
    Bumped a' := by
  rcases allocate_cases hcall with ⟨hroom, -, hremaining, hused, hblocks, hptr⟩ |
    ⟨total, hfits, -, hremaining, hused, hblocks, hptr⟩
  · refine ⟨fun q hq => ?_, fun hnone => ?_, ?_⟩
    · rw [hptr, Option.map_eq_some_iff] at hq
      obtain ⟨p, hp, rfl⟩ := hq
      obtain ⟨hlast, hend⟩ := h.last p hp
      rw [hblocks, hremaining, Nat.add_assoc, Nat.add_sub_cancel' hroom]
      exact ⟨hlast, hend⟩
    · rw [hptr, Option.map_eq_none_iff] at hnone
      rw [hremaining, h.empty hnone, Nat.zero_sub]
    · rw [hused, hblocks, h.used]
  · refine ⟨fun q hq => ?_, fun hnone => ?_, ?_⟩
    · rw [hptr] at hq
      cases hq
      rw [hblocks, hremaining, Nat.add_sub_cancel' hfits]
      exact ⟨by rw [List.length_append, List.length_singleton], List.getElem?_concat_length⟩
    · rw [hptr] at hnone
      cases hnone
    · rw [hused, hblocks, h.used, List.sum_append, List.sum_singleton]

/-- What is given out stays behind the pointer. -/
theorem Below.allocate {p : Pointer} (h : Below a p size)
    (hcall : a.allocate n new_ok = some (ptr, a')) : Below a' p size := by
  obtain ⟨total, hblock, hinside⟩ := h.inside
  rcases allocate_cases hcall with ⟨-, -, -, -, hblocks, hptr⟩ | ⟨total', -, -, -, -, hblocks, hptr⟩
  · refine ⟨⟨total, by rw [hblocks, hblock], hinside⟩, fun q hq hsame => ?_⟩
    rw [hptr, Option.map_eq_some_iff] at hq
    obtain ⟨q, hq, rfl⟩ := hq
    exact Nat.le_add_right_of_le (h.before q hq hsame)
  · have hlt : p.block < a.blocks.length := (List.getElem?_eq_some_iff.mp hblock).1
    refine ⟨⟨total, by rw [hblocks, List.getElem?_append_left hlt, hblock], hinside⟩, ?_⟩
    intro q hq hsame
    rw [hptr] at hq
    cases hq
    exact absurd hsame (Nat.ne_of_gt hlt)

/-- And so is what is given out next. -/
theorem Bumped.gives (h : Bumped a) (hcall : a.allocate n new_ok = some (ptr, a'))
    (hpos : 0 < size) (hsize : size ≤ n) : ∃ p, ptr = some p ∧ Below a' p size := by
  rcases allocate_cases hcall with ⟨hroom, rfl, -, -, hblocks, hptr⟩ |
    ⟨total, hfits, rfl, -, -, hblocks, hptr⟩
  · have hsome : a.ptr ≠ none := by
      intro hnone
      rw [h.empty hnone] at hroom
      omega
    obtain ⟨p, hp⟩ := Option.ne_none_iff_exists'.mp hsome
    obtain ⟨-, hend⟩ := h.last p hp
    refine ⟨p, hp, ⟨_, by rw [hblocks, hend], by omega⟩, fun q hq _ => ?_⟩
    rw [hptr, hp, Option.map_some, Option.some.injEq] at hq
    rw [← hq]
    exact Nat.add_le_add_left hsize _
  · refine ⟨_, rfl, ⟨total, ?_, by rw [Nat.zero_add]; exact Nat.le_trans hsize hfits⟩, ?_⟩
    · rw [hblocks, List.getElem?_concat_length]
    · intro q hq _
      rw [hptr] at hq
      cases hq
      rw [Nat.zero_add]
      exact hsize

theorem regionBytes_empty (ptr : Option Pointer) : regionBytes ⟨ptr, 0⟩ = ∅ := by
  refine Set.eq_empty_of_forall_notMem fun b hb => ?_
  obtain ⟨p, -, -, hle, hlt⟩ := hb
  exact Nat.lt_irrefl _ (Nat.lt_of_le_of_lt hle hlt)

theorem Below.apart {p : Pointer} {old : Nat} (h : Below a p old)
    (hcall : a.allocate n new_ok = some (ptr, a')) (size : Nat) :
    regionBytes ⟨some p, old⟩ ∩ regionBytes ⟨ptr, size⟩ = ∅ := by
  refine Set.eq_empty_of_forall_notMem fun b hb => ?_
  obtain ⟨⟨q, hq, hblock, -, hlt⟩, q', hq', hblock', hle', -⟩ := hb
  cases hq
  rcases allocate_cases hcall with ⟨-, rfl, -⟩ | ⟨total, -, rfl, -⟩
  · have hend := h.before q' hq' (hblock'.symm.trans hblock)
    exact Nat.lt_irrefl _ (Nat.lt_of_lt_of_le (Nat.lt_of_lt_of_le hlt hend) hle')
  · cases hq'
    obtain ⟨total', hthere, -⟩ := h.inside
    have hlt := (List.getElem?_eq_some_iff.mp hthere).1
    rw [← hblock, hblock'] at hlt
    exact Nat.lt_irrefl _ hlt

end

/-! ## Any calls -/

theorem Laid.give {g : Given} (h : Laid g) {n size : Nat} {new_ok : Bool} (hsize : size ≤ n) :
    Laid (g.answer size (g.arena.allocate n new_ok)) := by
  cases hcall : g.arena.allocate n new_ok with
  | none => exact h
  | some r =>
      obtain ⟨ptr, a'⟩ := r
      refine ⟨h.bumped.allocate hcall, fun r hr hpos => ?_, ?_⟩
      · rcases List.mem_append.mp hr with hr | hr
        · obtain ⟨p, hp, hbelow⟩ := h.regions r hr hpos
          exact ⟨p, hp, hbelow.allocate hcall⟩
        · obtain rfl := List.mem_singleton.mp hr
          exact h.bumped.gives hcall hpos hsize
      · refine List.pairwise_append.mpr ⟨h.apart, List.pairwise_singleton .., ?_⟩
        intro r hr r' hr'
        obtain rfl := List.mem_singleton.mp hr'
        rcases Nat.eq_zero_or_pos r.size with hzero | hpos
        · rw [show r = ⟨r.ptr, 0⟩ by rw [← hzero], regionBytes_empty]
          exact Set.empty_inter _
        · obtain ⟨p, hp, hbelow⟩ := h.regions r hr hpos
          rw [show r = ⟨some p, r.size⟩ by rw [← hp]]
          exact hbelow.apart hcall size

theorem Laid.ownBytes {g : Given} (h : Laid g) : OwnBytes g := by
  refine ⟨fun r hr hpos => ?_, fun r hr b hb => ?_, h.apart, h.bumped.used⟩
  · obtain ⟨p, hp, -⟩ := h.regions r hr hpos
    rw [hp]
    rfl
  · obtain ⟨q, hq, hblock, hle, hlt⟩ := hb
    obtain ⟨p, hp, hbelow⟩ := h.regions r hr (by omega)
    cases hq.symm.trans hp
    obtain ⟨total, hthere, hinside⟩ := hbelow.inside
    exact ⟨total, by rw [hblock, hthere], Nat.lt_of_lt_of_le hlt hinside⟩

theorem laid_start : Laid {} := by
  refine ⟨⟨fun q hq => ?_, fun _ => rfl, rfl⟩, fun r hr => ?_, .nil⟩
  · cases hq
  · cases hr

/-- Rounding up only adds bytes. -/
theorem le_rounded {n : Nat} (h : n + 7 < 2 ^ 64) : n ≤ (n + 7) % 2 ^ 64 / 8 * 8 := by
  rw [Nat.mod_eq_of_lt h]
  omega

theorem Laid.call {g : Given} (h : Laid g) {c : ArenaCall} (hc : RoundsUp c) :
    Laid (g.call c) := by
  cases c with
  | allocate n new_ok => exact h.give (Nat.le_refl n)
  | allocate_aligned n new_ok => exact h.give (le_rounded hc)

/-- The pointer and all that was given out are at multiples of 8. -/
structure Multiples (g : Given) : Prop where
  ptr : ∀ p, g.arena.ptr = some p → 8 ∣ p.offset
  regions : AlignedRegions g

theorem multiples_start : Multiples {} := by
  refine ⟨fun q hq => ?_, fun r hr => ?_⟩
  · cases hq
  · cases hr

theorem Multiples.give {g : Given} (h : Multiples g) {n : Nat} (hn : 8 ∣ n) (size : Nat)
    (new_ok : Bool) : Multiples (g.answer size (g.arena.allocate n new_ok)) := by
  cases hcall : g.arena.allocate n new_ok with
  | none => exact h
  | some r =>
      obtain ⟨ptr, a'⟩ := r
      have hptr : (∀ p, ptr = some p → 8 ∣ p.offset) ∧ ∀ p, a'.ptr = some p → 8 ∣ p.offset := by
        rcases allocate_cases hcall with ⟨-, rfl, -, -, -, hptr⟩ | ⟨total, -, rfl, -, -, -, hptr⟩
        · refine ⟨h.ptr, fun p hp => ?_⟩
          rw [hptr, Option.map_eq_some_iff] at hp
          obtain ⟨q, hq, rfl⟩ := hp
          exact Nat.dvd_add (h.ptr q hq) hn
        · rw [hptr]
          refine ⟨fun p hp => ?_, fun p hp => ?_⟩ <;> cases hp
          · exact Nat.dvd_zero 8
          · exact hn
      refine ⟨hptr.2, fun r hr => ?_⟩
      rcases List.mem_append.mp hr with hr | hr
      · exact h.regions r hr
      · obtain rfl := List.mem_singleton.mp hr
        exact hptr.1

theorem Multiples.call {g : Given} (h : Multiples g) {c : ArenaCall} (hc : KeepsAligned c) :
    Multiples (g.call c) := by
  cases c with
  | allocate n new_ok => exact h.give hc n new_ok
  | allocate_aligned n new_ok => exact h.give (Nat.dvd_mul_left 8 _) n new_ok

/-- After any calls, with `operator new[]` throwing in any of them, all who asked have
bytes of their own, at aligned addresses if no call left the pointer off one. -/
theorem arena_own_bytes (calls : List ArenaCall) (hround : ∀ c ∈ calls, RoundsUp c) :
    OwnBytes (calls.foldl Given.call {}) ∧
      ((∀ c ∈ calls, KeepsAligned c) → AlignedRegions (calls.foldl Given.call {})) := by
  constructor
  · have hlaid : Laid (calls.foldl Given.call {}) :=
      List.foldlRecOn calls Given.call laid_start fun g hg c hc => hg.call (hround c hc)
    exact hlaid.ownBytes
  · intro haligned
    have hmultiples : Multiples (calls.foldl Given.call {}) :=
      List.foldlRecOn calls Given.call multiples_start fun g hg c hc => hg.call (haligned c hc)
    exact hmultiples.regions

/-- A block is used up, one call gets none, and one gets a large block. -/
theorem arena_own_bytes_full :
    let calls : List ArenaCall := [.allocate_aligned 4000 true, .allocate_aligned 100 false,
      .allocate_aligned 90 true, .allocate 5000 true, .allocate_aligned 13 true]
    (calls.foldl Given.call {}).regions = [⟨some ⟨0, 0⟩, 4000⟩, ⟨some ⟨0, 4000⟩, 90⟩,
      ⟨some ⟨1, 0⟩, 5000⟩, ⟨some ⟨2, 0⟩, 13⟩] ∧
    OwnBytes (calls.foldl Given.call {}) ∧ AlignedRegions (calls.foldl Given.call {}) := by
  have h := arena_own_bytes [.allocate_aligned 4000 true, .allocate_aligned 100 false,
    .allocate_aligned 90 true, .allocate 5000 true, .allocate_aligned 13 true] (by decide)
  exact ⟨by decide, h.1, h.2 (by decide)⟩

/-! ## A memtable -/

/-- All that the objects of a memtable rely on. -/
structure Safe (m : MemTableMemory) : Prop where
  laid : Laid (givenOf m)
  multiples : Multiples (givenOf m)

theorem Safe.place {m : MemTableMemory} (h : Safe m) {n : Nat} (hn : n + 7 < 2 ^ 64)
    (new_ok : Bool) : Safe (memoryAfter (m.place n new_ok)) := by
  have hcall : givenOf (memoryAfter (m.place n new_ok)) =
      (givenOf m).call (.allocate_aligned n new_ok) := by
    rw [MemTableMemory.place, Given.call, givenOf, givenOf]
    cases m.arena.allocate_aligned n new_ok with
    | none => rfl
    | some r => rfl
  constructor
  · rw [hcall]
    exact h.laid.call (c := .allocate_aligned n new_ok) hn
  · rw [hcall]
    exact h.multiples.call (c := .allocate_aligned n new_ok) trivial

theorem nodeSize_le (height : Fin kMaxHeight) : nodeSize (height + 1) ≤ 136 := by
  have hlt : height.val < 12 := height.isLt
  rw [nodeSize]
  omega

theorem Safe.insert {m : MemTableMemory} (h : Safe m) (i : MemInsert) : Safe (i.act m) := by
  have hvalue := h.place (show kEventSize + 7 < 2 ^ 64 by decide) i.value_ok
  rw [MemInsert.act, MemTableMemory.insert]
  cases hplace : m.place kEventSize i.value_ok with
  | error err m' =>
      rw [hplace] at hvalue
      exact hvalue
  | ok u m' =>
      rw [hplace] at hvalue
      have hvalue : Safe m' := hvalue
      have hsize : nodeSize (i.height + 1) + 7 < 2 ^ 64 := by
        have hle := nodeSize_le i.height
        omega
      have hnode := hvalue.place hsize i.node_ok
      cases m.nodes.any (·.key = i.e.key) with
      | true => exact ⟨hvalue.laid, hvalue.multiples⟩
      | false =>
          simp only [if_neg Bool.false_ne_true]
          cases hnew : m'.place (nodeSize (i.height + 1)) i.node_ok with
          | error err m'' =>
              rw [hnew] at hnode
              exact hnode
          | ok u m'' =>
              rw [hnew] at hnode
              exact ⟨hnode.laid, hnode.multiples⟩

/-! ### With the sizes alone -/

theorem place_sized (m : MemTableMemory) {n : Nat} (hn : n + 7 < 2 ^ 64) :
    ∃ m', m.place n true = .ok () m' ∧ sizesOf m'.arena = (sizesOf m.arena).allocate_aligned n ∧
      m'.nodes = m.nodes ∧ m'.objects.length = m.objects.length + 1 := by
  rw [MemTableMemory.place, BlockArena.allocate_aligned, Nat.mod_eq_of_lt hn,
    Arena.allocate_aligned, BlockArena.allocate, Arena.allocate, BlockArena.slow_alloc]
  by_cases hroom : (n + 7) / 8 * 8 ≤ m.arena.remaining
  · rw [if_pos hroom, if_pos (show _ ≤ (sizesOf m.arena).remaining from hroom)]
    exact ⟨_, rfl, rfl, rfl, by rw [List.length_append, List.length_singleton]⟩
  · rw [if_neg hroom, if_neg (show ¬ _ ≤ (sizesOf m.arena).remaining from hroom)]
    exact ⟨_, rfl, rfl, rfl, by rw [List.length_append, List.length_singleton]⟩

/-- A memtable in memory and the one with the sizes of its arena. -/
structure Sized (m : MemTableMemory) (t : MemTable) (inserts : Nat) : Prop where
  nodes : m.nodes = t.nodes
  arena : sizesOf m.arena = t.arena
  objects : m.objects.length = 1 + inserts + t.nodes.length

theorem Sized.insert {m : MemTableMemory} {t : MemTable} {inserts : Nat} (h : Sized m t inserts)
    (hsorted : Keyed.Sorted Event.key t.nodes) {i : MemInsert} (hok : i.value_ok ∧ i.node_ok) :
    Sized (i.act m) (i.sized t) (inserts + 1) := by
  obtain ⟨e, height, value_ok, node_ok⟩ := i
  obtain ⟨rfl, rfl⟩ := hok
  obtain ⟨m', hvalue, harena, hnodes, hcount⟩ :=
    place_sized m (show kEventSize + 7 < 2 ^ 64 by decide)
  have hsize : nodeSize (height + 1) + 7 < 2 ^ 64 := by
    have hle := nodeSize_le height
    omega
  obtain ⟨m'', hnode, harena', hnodes', hcount'⟩ := place_sized m' hsize
  rw [h.arena] at harena
  rw [harena] at harena'
  have hlength := Keyed.length_upsert e hsorted
  have hobjects := h.objects
  rw [MemInsert.act, MemTableMemory.insert, hvalue, h.nodes, MemInsert.sized]
  simp only [MemTable.insert]
  cases hknown : t.nodes.any (·.key = e.key) with
  | true =>
      rw [hknown] at hlength
      refine ⟨?_, harena, ?_⟩
      · exact congrArg (Keyed.upsert Event.key e) (hnodes.trans h.nodes)
      · refine hcount.trans ?_
        dsimp only
        rw [hlength, if_pos rfl]
        omega
  | false =>
      rw [hknown] at hlength
      simp only [if_neg Bool.false_ne_true, hnode]
      refine ⟨?_, harena', ?_⟩
      · exact congrArg (Keyed.upsert Event.key e) (hnodes'.trans (hnodes.trans h.nodes))
      · refine hcount'.trans ?_
        dsimp only
        rw [hlength, if_neg Bool.false_ne_true]
        omega

theorem sized_start (flush_threshold_bytes : Nat) :
    Sized (memoryAfter (MemTableMemory.new true)) (.new flush_threshold_bytes) 0 := by
  obtain ⟨m, hnew, harena, hnodes, hcount⟩ :=
    place_sized {} (show nodeSize kMaxHeight + 7 < 2 ^ 64 by decide)
  rw [MemTableMemory.new, hnew]
  exact ⟨hnodes, harena, hcount⟩

theorem sized_run {m : MemTableMemory} {t : MemTable} {k : Nat} (h : Sized m t k)
    (hsorted : Keyed.Sorted Event.key t.nodes) {inserts : List MemInsert}
    (hok : ∀ i ∈ inserts, i.value_ok ∧ i.node_ok) :
    Sized (inserts.foldl MemInsert.act m) (inserts.foldl MemInsert.sized t)
      (k + inserts.length) := by
  induction inserts generalizing m t k with
  | nil => exact h
  | cons i is ih =>
      have hstep := h.insert hsorted (hok i List.mem_cons_self)
      have hrest := ih hstep (Keyed.upsert_sorted i.e hsorted) fun j hj =>
        hok j (List.mem_cons_of_mem _ hj)
      rw [Nat.add_assoc, Nat.add_comm 1] at hrest
      exact hrest

/-- After any inserts, with `operator new[]` throwing in any of them, the head, each value
and each node have aligned bytes of their own; and as long as it does not throw, there is
a value for each insert and a node for each key, and the two sizes of the memtable are
those of the blocks. -/
theorem memtable_own_bytes (flush_threshold_bytes : Nat) (inserts : List MemInsert) :
    let m := inserts.foldl MemInsert.act (memoryAfter (MemTableMemory.new true))
    let t := inserts.foldl MemInsert.sized (.new flush_threshold_bytes)
    OwnBytes (givenOf m) ∧ AlignedRegions (givenOf m) ∧
      ((∀ i ∈ inserts, i.value_ok ∧ i.node_ok) →
        m.nodes = t.nodes ∧ t.arena = ⟨m.arena.remaining, m.arena.blocks.sum⟩ ∧
          m.objects.length = 1 + inserts.length + t.nodes.length) := by
  have hstart : Safe (memoryAfter (MemTableMemory.new true)) :=
    Safe.place (m := {}) ⟨laid_start, multiples_start⟩
      (show nodeSize kMaxHeight + 7 < 2 ^ 64 by decide) true
  have hsafe : Safe (inserts.foldl MemInsert.act (memoryAfter (MemTableMemory.new true))) :=
    List.foldlRecOn inserts MemInsert.act hstart fun m hm i _ => hm.insert i
  refine ⟨hsafe.laid.ownBytes, hsafe.multiples.regions, fun hok => ?_⟩
  have hsized := sized_run (sized_start flush_threshold_bytes) .nil hok
  rw [Nat.zero_add] at hsized
  refine ⟨hsized.nodes, ?_, hsized.objects⟩
  rw [← hsized.arena]
  exact congrArg (Arena.mk _) hsafe.laid.bumped.used

end Kronos
