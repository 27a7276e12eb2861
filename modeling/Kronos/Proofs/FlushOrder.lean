import Kronos.Lib.Slots
import Kronos.Proofs.Restart
import Kronos.Spec.FlushOrder

/-!
# Numbers in the order of the memtables

Memtables are pushed and popped in one order, and numbers are drawn from a
counter. What can go wrong is between the pop and the number: two threads can
take their numbers in the other order. Where each thread takes its number
before those that popped after it, a memtable that has no number yet was
pushed after all that have one.
-/

namespace Kronos.Spec.FlushOrder

open Kronos

/-- The `k`-th memtable is with a thread that is at `f`. -/
def Holds (n : FlushOrder) (f : Flusher) (k : Nat) : Prop :=
  ∃ j : Nat, n.flushing.flushers[j]? = some f ∧ n.held[j]? = some k

/-- A memtable that has its number: its table is written, or a thread holds
both. -/
def Numbered (n : FlushOrder) (k seq : Nat) : Prop :=
  (k, seq) ∈ n.written ∨ ∃ mem, n.Holds (.numbered mem seq) k

/-- What every guarded step keeps. -/
structure Ordered (n : FlushOrder) : Prop where
  queue_length : n.queue.length = n.flushing.writers.db.imm_mems.length
  held_length : n.held.length = n.flushing.flushers.length
  queue_sorted : n.queue.Pairwise (· < ·)
  queue_pushed : ∀ q ∈ n.queue, q < n.pushed
  held_before : ∀ k ∈ n.held, k < n.pushed ∧ ∀ q ∈ n.queue, k < q
  numbered_before : ∀ k seq, n.Numbered k seq →
    seq < n.flushing.writers.db.sst_seq ∧ k < n.pushed ∧ ∀ q ∈ n.queue, k < q
  /-- a memtable without a number comes after those with one -/
  waiting_after : ∀ mem k, n.Holds (.popped mem) k → ∀ k' seq, n.Numbered k' seq → k' < k
  in_order : ∀ k seq k' seq', n.Numbered k seq → n.Numbered k' seq' → k < k' → seq < seq'

variable {n : FlushOrder}

theorem Ordered.inOrder (h : Ordered n) : InOrder n := fun p hp q hq =>
  h.in_order p.1 p.2 q.1 q.2 (.inl hp) (.inl hq)

theorem ordered_start (cfg : DBConfig) (disk : Disk) (listing : List SSTablePath)
    (heights : Nat → Fin kMaxHeight)
    (himm : (opened cfg disk listing heights).imm_mems = []) :
    Ordered (startFlushes cfg disk listing heights) where
  queue_length := (congrArg List.length himm).symm
  held_length := rfl
  queue_sorted := List.Pairwise.nil
  queue_pushed := nofun
  held_before := nofun
  numbered_before := fun k seq h => by
    rcases h with h | ⟨mem, j, h, -⟩ <;> cases h
  waiting_after := fun mem k h => by
    obtain ⟨j, h, -⟩ := h
    cases h
  in_order := fun k seq k' seq' h => by
    rcases h with h | ⟨mem, j, h, -⟩ <;> cases h

/-! ## Steps that push -/

/-- The queue of memtables is left alone or gets one more, and no number is
drawn. -/
def Pushes (db db' : DB) : Prop :=
  (db'.imm_mems = db.imm_mems ∨ ∃ mem, db'.imm_mems = db.imm_mems ++ [mem]) ∧
    db'.sst_seq = db.sst_seq

theorem pushes_wal_append (db : DB) (e : Event) (io : AppendIO) :
    Pushes db (after (db.wal_append e io)) := by
  rw [DB.wal_append]
  split
  · exact ⟨.inl rfl, rfl⟩
  · split <;> exact ⟨.inl rfl, rfl⟩

theorem pushes_mem_insert (db : DB) (e : Event) (height : Fin kMaxHeight) :
    Pushes db (db.mem_insert e height) := by
  rw [DB.mem_insert]
  split
  · exact ⟨.inr ⟨_, rfl⟩, rfl⟩
  · exact ⟨.inl rfl, rfl⟩

theorem pushes_rotate (db : DB) : Pushes db db.rotate := by
  rw [DB.rotate]
  split
  · exact ⟨.inl rfl, rfl⟩
  · exact ⟨.inr ⟨_, rfl⟩, rfl⟩

theorem pushes_advance (height : Fin kMaxHeight) (w : Writers) (c : WriteCall) :
    Pushes w.db (w.advance height c).2 := by
  rw [Writers.advance]
  split
  · exact ⟨.inl rfl, rfl⟩
  · cases c.args <;> exact ⟨.inl rfl, rfl⟩
  · next e _ =>
      have h := pushes_wal_append w.db e {}
      split
      · next hwal => rwa [hwal] at h
      · next hwal => rwa [hwal] at h
  · split
    · exact ⟨.inl rfl, rfl⟩
    · split <;> exact pushes_mem_insert w.db _ height
  · split <;> exact ⟨.inl rfl, rfl⟩
  all_goals exact ⟨.inl rfl, rfl⟩

theorem pushes_writers (w : Writers) (a : WriterAct) : Pushes w.db (w.act a).db := by
  cases a with
  | call args => exact ⟨.inl rfl, rfl⟩
  | next i height =>
      rw [Writers.act, Writers.next]
      split
      · exact ⟨.inl rfl, rfl⟩
      · next c _ => exact pushes_advance height w c

theorem ordered_push (h : Ordered n) {flushing : Flushing}
    (hflushers : flushing.flushers = n.flushing.flushers)
    (hp : Pushes n.flushing.writers.db flushing.writers.db) : Ordered (n.note_push flushing) := by
  obtain ⟨himm, hseq⟩ := hp
  rw [note_push]
  rcases himm with himm | ⟨mem, himm⟩
  · rw [if_neg (by rw [himm]; exact Nat.lt_irrefl _)]
    have hholds : ∀ f k, Holds { n with flushing } f k ↔ Holds n f k := fun f k => by
      simp only [Holds, hflushers]
    have hnum : ∀ k seq, Numbered { n with flushing } k seq ↔ Numbered n k seq := fun k seq => by
      simp only [Numbered, hholds]
    exact
      { queue_length := h.queue_length.trans (congrArg List.length himm).symm
        held_length := h.held_length.trans (congrArg List.length hflushers).symm
        queue_sorted := h.queue_sorted
        queue_pushed := h.queue_pushed
        held_before := h.held_before
        numbered_before := fun k seq hk => hseq ▸ h.numbered_before k seq ((hnum k seq).mp hk)
        waiting_after := fun mem k hk k' seq hn =>
          h.waiting_after mem k ((hholds _ _).mp hk) k' seq ((hnum k' seq).mp hn)
        in_order := fun k seq k' seq' hk hk' =>
          h.in_order k seq k' seq' ((hnum k seq).mp hk) ((hnum k' seq').mp hk') }
  · let n' : FlushOrder :=
      { n with flushing, pushed := n.pushed + 1, queue := n.queue ++ [n.pushed] }
    have hholds : ∀ f k, Holds n' f k ↔ Holds n f k := fun f k => by
      simp only [n', Holds, hflushers]
    have hnum : ∀ k seq, Numbered n' k seq ↔ Numbered n k seq := fun k seq => by
      simp only [n', Numbered, hholds]
    have hnew : ∀ k, k < n.pushed → (∀ q ∈ n.queue, k < q) →
        k < n.pushed + 1 ∧ ∀ q ∈ n.queue ++ [n.pushed], k < q := fun k hk hq => by
      refine ⟨Nat.lt_succ_of_lt hk, fun q hin => ?_⟩
      rcases List.mem_append.mp hin with hin | hin
      · exact hq q hin
      · rwa [List.mem_singleton.mp hin]
    rw [if_pos (by rw [himm, List.length_append]; exact Nat.lt_succ_self _)]
    exact
      { queue_length := by
          rw [himm, List.length_append, List.length_append, h.queue_length]; rfl
        held_length := h.held_length.trans (congrArg List.length hflushers).symm
        queue_sorted := List.pairwise_append.mpr ⟨h.queue_sorted, List.pairwise_singleton _ _,
          fun q hq p hp => List.mem_singleton.mp hp ▸ h.queue_pushed q hq⟩
        queue_pushed := fun q hq => by
          rcases List.mem_append.mp hq with hq | hq
          · exact Nat.lt_succ_of_lt (h.queue_pushed q hq)
          · rw [List.mem_singleton.mp hq]; exact Nat.lt_succ_self _
        held_before := fun k hk => hnew k (h.held_before k hk).1 (h.held_before k hk).2
        numbered_before := fun k seq hk => by
          obtain ⟨hs, hlt, hq⟩ := h.numbered_before k seq ((hnum k seq).mp hk)
          exact ⟨hseq ▸ hs, hnew k hlt hq⟩
        waiting_after := fun mem k hk k' seq hn =>
          h.waiting_after mem k ((hholds _ _).mp hk) k' seq ((hnum k' seq).mp hn)
        in_order := fun k seq k' seq' hk hk' =>
          h.in_order k seq k' seq' ((hnum k seq).mp hk) ((hnum k' seq').mp hk') }

/-! ## Popping -/

theorem ordered_pop (h : Ordered n) : Ordered (n.act .pop) := by
  cases himm : n.flushing.writers.db.imm_mems with
  | nil =>
      have hqueue : n.queue = [] :=
        List.length_eq_zero_iff.mp (h.queue_length.trans (congrArg List.length himm))
      have hstay : n.flushing.act .pop = n.flushing := by
        simp only [Flushing.act, Flushing.flush_step, Threads.pop, himm]
      have hself : n.act .pop = n := by
        rw [act, note_pop, hstay]
        split
        · rfl
        · next hq => cases hqueue.symm.trans hq
      rwa [hself]
  | cons mem rest =>
      obtain ⟨k, queue, hqueue⟩ : ∃ k queue, n.queue = k :: queue := by
        refine List.exists_cons_of_ne_nil fun hnil => ?_
        have hlen := h.queue_length
        rw [hnil, himm] at hlen
        cases hlen
      let n' : FlushOrder :=
        { n with
          flushing :=
            { writers := { n.flushing.writers with
                db := { n.flushing.writers.db with imm_mems := rest } }
              flushers := n.flushing.flushers ++ [.popped mem] }
          queue, held := n.held ++ [k] }
      have hact : n.act .pop = n' := by
        simp only [act, Flushing.act, Flushing.flush_step, Threads.pop, himm, note_pop, hqueue, n']
      have hholds : ∀ f k', Holds n' f k' → Holds n f k' ∨ f = .popped mem ∧ k' = k := by
        rintro f k' ⟨j, hj, hk⟩
        rcases Slots.concat_iff.mp hj with hj | ⟨hj, hf⟩
        · rcases Slots.concat_iff.mp hk with hk | ⟨hk, -⟩
          · exact .inl ⟨j, hj, hk⟩
          · rw [h.held_length] at hk
            exact absurd (List.getElem?_eq_some_iff.mp hj).1 (hk ▸ Nat.lt_irrefl _)
        · rcases Slots.concat_iff.mp hk with hk | ⟨-, hk⟩
          · rw [hj, ← h.held_length] at hk
            exact absurd (List.getElem?_eq_some_iff.mp hk).1 (Nat.lt_irrefl _)
          · exact .inr ⟨hf.symm, hk.symm⟩
      have hnum : ∀ k' seq, Numbered n' k' seq → Numbered n k' seq := fun k' seq hn => by
        rcases hn with hn | ⟨m, hn⟩
        · exact .inl hn
        · rcases hholds _ _ hn with hn | ⟨hf, -⟩
          · exact .inr ⟨m, hn⟩
          · cases hf
      have hk : k ∈ n.queue := hqueue ▸ List.mem_cons_self
      have hsub : ∀ q ∈ queue, q ∈ n.queue := fun q hq => hqueue ▸ List.mem_cons_of_mem k hq
      have hsorted := h.queue_sorted
      rw [hqueue] at hsorted
      obtain ⟨hhead, htail⟩ := List.pairwise_cons.mp hsorted
      rw [hact]
      exact
        { queue_length := by
            have hlen := h.queue_length
            rw [hqueue, himm] at hlen
            exact Nat.succ.inj hlen
          held_length := by
            change (n.held ++ [k]).length = (n.flushing.flushers ++ [Flusher.popped mem]).length
            rw [List.length_append, List.length_append, h.held_length]
            rfl
          queue_sorted := htail
          queue_pushed := fun q hq => h.queue_pushed q (hsub q hq)
          held_before := fun k' hk' => by
            rcases List.mem_append.mp hk' with hk' | hk'
            · obtain ⟨hlt, hq⟩ := h.held_before k' hk'
              exact ⟨hlt, fun q hin => hq q (hsub q hin)⟩
            · rw [List.mem_singleton.mp hk']
              exact ⟨h.queue_pushed k hk, hhead⟩
          numbered_before := fun k' seq hn => by
            obtain ⟨hs, hlt, hq⟩ := h.numbered_before k' seq (hnum k' seq hn)
            exact ⟨hs, hlt, fun q hin => hq q (hsub q hin)⟩
          waiting_after := fun m k' hw k'' seq hn => by
            rcases hholds _ _ hw with hw | ⟨-, rfl⟩
            · exact h.waiting_after m k' hw k'' seq (hnum k'' seq hn)
            · exact (h.numbered_before k'' seq (hnum k'' seq hn)).2.2 k' hk
          in_order := fun k₁ s₁ k₂ s₂ h₁ h₂ =>
            h.in_order k₁ s₁ k₂ s₂ (hnum k₁ s₁ h₁) (hnum k₂ s₂ h₂) }

/-! ## Flushing -/

/-- A step that numbers nothing and takes nothing up. -/
theorem Ordered.less (h : Ordered n) {n' : FlushOrder} (hqueue : n'.queue = n.queue)
    (hpushed : n'.pushed = n.pushed)
    (himm : n'.flushing.writers.db.imm_mems = n.flushing.writers.db.imm_mems)
    (hseq : n'.flushing.writers.db.sst_seq = n.flushing.writers.db.sst_seq)
    (hlen : n'.held.length = n'.flushing.flushers.length) (hheld : ∀ k ∈ n'.held, k ∈ n.held)
    (hnum : ∀ k seq, Numbered n' k seq → Numbered n k seq)
    (hholds : ∀ mem k, Holds n' (.popped mem) k → Holds n (.popped mem) k) : Ordered n' where
  queue_length := by rw [hqueue, himm, h.queue_length]
  held_length := hlen
  queue_sorted := hqueue ▸ h.queue_sorted
  queue_pushed := fun q hq => hpushed ▸ h.queue_pushed q (hqueue ▸ hq)
  held_before := fun k hk => by
    rw [hpushed, hqueue]
    exact h.held_before k (hheld k hk)
  numbered_before := fun k seq hn => by
    rw [hseq, hpushed, hqueue]
    exact h.numbered_before k seq (hnum k seq hn)
  waiting_after := fun mem k hw k' seq hn =>
    h.waiting_after mem k (hholds mem k hw) k' seq (hnum k' seq hn)
  in_order := fun k seq k' seq' hk hk' =>
    h.in_order k seq k' seq' (hnum k seq hk) (hnum k' seq' hk')

/-- A thread that is through leaves. -/
theorem ordered_leave (h : Ordered n) {i : Nat} (hi : i < n.flushing.flushers.length)
    {flushing : Flushing} (hflushers : flushing.flushers = n.flushing.flushers.eraseIdx i)
    (himm : flushing.writers.db.imm_mems = n.flushing.writers.db.imm_mems)
    (hseq : flushing.writers.db.sst_seq = n.flushing.writers.db.sst_seq) :
    Ordered { n with flushing, held := n.held.eraseIdx i } := by
  have hholds : ∀ f k, Holds { n with flushing, held := n.held.eraseIdx i } f k → Holds n f k := by
    rintro f k ⟨j, hj, hk⟩
    exact Slots.of_erase_pair (hflushers ▸ hj) hk
  refine h.less rfl rfl himm hseq ?_ (fun k hk => List.mem_of_mem_eraseIdx hk) ?_
    fun mem k => hholds _ k
  · change (n.held.eraseIdx i).length = flushing.flushers.length
    rw [hflushers, List.length_eraseIdx_of_lt (h.held_length ▸ hi),
      List.length_eraseIdx_of_lt hi, h.held_length]
  · intro k seq hn
    exact hn.imp_right fun ⟨mem, hm⟩ => ⟨mem, hholds _ k hm⟩

theorem ordered_flush (h : Ordered n) {i : Nat} (hturn : Turn n (.flush i)) :
    Ordered (n.act (.flush i)) := by
  cases hi : n.flushing.flushers[i]? with
  | none =>
      have hself : n.act (.flush i) = n := by
        simp only [act, Flushing.act, Flushing.flush_step, Threads.flush, hi, note_flush]
      rwa [hself]
  | some f =>
      have hlt := (List.getElem?_eq_some_iff.mp hi).1
      obtain ⟨k, hk⟩ : ∃ k, n.held[i]? = some k :=
        ⟨_, List.getElem?_eq_getElem (h.held_length ▸ hlt)⟩
      have hset : ∀ (g f' : Flusher) (j k' : Nat),
          (n.flushing.flushers.set i g)[j]? = some f' → n.held[j]? = some k' →
            j = i ∧ f' = g ∧ k' = k ∨ j ≠ i ∧ n.flushing.flushers[j]? = some f' := by
        intro g f' j k' hj hk'
        rcases (Slots.set_iff hi).mp hj with ⟨rfl, hf⟩ | hj
        · rw [hk] at hk'
          exact .inl ⟨rfl, hf.symm, (Option.some.inj hk').symm⟩
        · exact .inr hj
      cases f with
      | popped mem =>
          let n' : FlushOrder := { n with
            flushing :=
              { writers := { n.flushing.writers with
                  db := { n.flushing.writers.db with
                    sst_seq := n.flushing.writers.db.sst_seq + 1 } }
                flushers := n.flushing.flushers.set i
                  (.numbered mem n.flushing.writers.db.sst_seq) } }
          have hact : n.act (.flush i) = n' := by
            simp only [act, Flushing.act, Flushing.flush_step, Threads.flush, hi, note_flush, n']
          have hnum : ∀ k' s, Numbered n' k' s →
              Numbered n k' s ∨ k' = k ∧ s = n.flushing.writers.db.sst_seq := by
            rintro k' s (hn | ⟨m, j, hj, hk'⟩)
            · exact .inl (.inl hn)
            · rcases hset _ _ j k' hj hk' with ⟨-, hf, rfl⟩ | ⟨-, hj⟩
              · cases hf
                exact .inr ⟨rfl, rfl⟩
              · exact .inl (.inr ⟨m, j, hj, hk'⟩)
          have hfirst := h.waiting_after mem k ⟨i, hi, hk⟩
          rw [hact]
          exact
            { queue_length := h.queue_length
              held_length := h.held_length.trans List.length_set.symm
              queue_sorted := h.queue_sorted
              queue_pushed := h.queue_pushed
              held_before := h.held_before
              numbered_before := fun k' s hn => by
                rcases hnum k' s hn with hn | ⟨rfl, rfl⟩
                · obtain ⟨hs, hrest⟩ := h.numbered_before k' s hn
                  exact ⟨Nat.lt_succ_of_lt hs, hrest⟩
                · exact ⟨Nat.lt_succ_self _, h.held_before _ (List.mem_of_getElem? hk)⟩
              waiting_after := by
                rintro m k' ⟨j, hj, hk'⟩ k'' s hn
                rcases hset _ _ j k' hj hk' with ⟨-, hf, -⟩ | ⟨hji, hj⟩
                · cases hf
                · rcases hnum k'' s hn with hn | ⟨rfl, -⟩
                  · exact h.waiting_after m k' ⟨j, hj, hk'⟩ k'' s hn
                  · exact hturn mem _ hi hk j m k' hji hj hk'
              in_order := fun k₁ s₁ k₂ s₂ h₁ h₂ hlt => by
                rcases hnum k₁ s₁ h₁ with h₁ | ⟨rfl, rfl⟩ <;>
                  rcases hnum k₂ s₂ h₂ with h₂ | ⟨rfl, rfl⟩
                · exact h.in_order k₁ s₁ k₂ s₂ h₁ h₂ hlt
                · exact (h.numbered_before k₁ s₁ h₁).1
                · exact absurd (hfirst k₂ s₂ h₂) (Nat.not_lt_of_lt hlt)
                · exact absurd hlt (Nat.lt_irrefl _) }
      | numbered mem seq =>
          by_cases hempty : mem.empty = true
          · have hact : n.act (.flush i) = { n with
                flushing := { n.flushing with flushers := n.flushing.flushers.eraseIdx i }
                held := n.held.eraseIdx i } := by
              simp only [act, Flushing.act, Flushing.flush_step, Threads.flush, hi, note_flush, hk,
                if_pos hempty]
            rw [hact]
            exact ordered_leave h hlt rfl rfl rfl
          · let t := SSTable.write 0 seq mem.to_sorted_events
            have hact : n.act (.flush i) = { n with
                flushing :=
                  { writers := { n.flushing.writers with
                      db := n.flushing.writers.db.write_table (DB.flush_path seq) t }
                    flushers := n.flushing.flushers.set i
                      (.written ⟨DB.flush_path seq, t.meta_⟩) }
                written := n.written ++ [(k, seq)] } := by
              simp only [act, Flushing.act, Flushing.flush_step, Threads.flush, hi, note_flush, hk,
                if_neg hempty, t]
              rfl
            rw [hact]
            refine h.less rfl rfl rfl rfl (h.held_length.trans List.length_set.symm)
              (fun _ hin => hin) ?_ ?_
            · rintro k' s (hn | ⟨m, j, hj, hk'⟩)
              · rcases List.mem_append.mp hn with hn | hn
                · exact .inl hn
                · cases List.mem_singleton.mp hn
                  exact .inr ⟨mem, i, hi, hk⟩
              · rcases hset _ _ j k' hj hk' with ⟨-, hf, -⟩ | ⟨-, hj⟩
                · cases hf
                · exact .inr ⟨m, j, hj, hk'⟩
            · rintro m k' ⟨j, hj, hk'⟩
              rcases hset _ _ j k' hj hk' with ⟨-, hf, -⟩ | ⟨-, hj⟩
              · cases hf
              · exact ⟨j, hj, hk'⟩
      | written info =>
          have hact : n.act (.flush i) = { n with
              flushing := n.flushing.act (.flush i), held := n.held.eraseIdx i } := by
            simp only [act, note_flush, hi]
          rw [hact]
          refine ordered_leave h hlt ?_ ?_ ?_ <;>
            simp only [Flushing.act, Flushing.flush_step, Threads.flush, hi]

theorem ordered_act (h : Ordered n) {a : FlushingAct} (hturn : Turn n a) : Ordered (n.act a) := by
  cases a with
  | write a => exact ordered_push h rfl (pushes_writers n.flushing.writers a)
  | rotate => exact ordered_push h rfl (pushes_rotate n.flushing.writers.db)
  | pop => exact ordered_pop h
  | flush i => exact ordered_flush h hturn

/-- After `open`, over any calls, rotations and flushing threads: as long as
every thread takes its number before those that popped after it, the sequences
of the tables are in the order in which their memtables were pushed. -/
theorem sequences_in_order (cfg : DBConfig) (disk : Disk) (listing : List SSTablePath)
    (heights : Nat → Fin kMaxHeight) (acts : List FlushingAct)
    (hturn : Run.Along act Turn (startFlushes cfg disk listing heights) acts) :
    Run.Along act (fun n a => InOrder (n.act a)) (startFlushes cfg disk listing heights) acts := by
  have hrun : ∀ (acts : List FlushingAct) (n : FlushOrder), Ordered n → Run.Along act Turn n acts →
      Run.Along act (fun n a => InOrder (n.act a)) n acts := by
    intro acts
    induction acts with
    | nil => exact fun _ _ _ => trivial
    | cons a acts ih =>
        intro n hn ha
        have hnext := ordered_act hn ha.1
        exact ⟨hnext.inOrder, ih _ hnext ha.2⟩
  exact hrun acts _ (ordered_start cfg disk listing heights
    (open_quiet cfg disk listing heights).2.2.1) hturn

/-- Two appends, each of which fills a memtable, and both memtables popped. -/
def twoPopped : List FlushingAct :=
  [.write (.call (.append [65] {})), .write (.next 0 0), .write (.next 0 0), .write (.next 0 0),
    .write (.next 0 0), .write (.call (.append [65] {})), .write (.next 1 0), .write (.next 1 0),
    .write (.next 1 0), .write (.next 1 0), .pop, .pop]

def tinyConfig : DBConfig := { wal_enabled := false, memtable_flush_bytes := 1 }

/-- The thread that took the second number writes its table first. -/
theorem sequences_in_order_two : Run.Along act (fun n a => InOrder (n.act a))
    (startFlushes tinyConfig {} [] fun _ => 0)
    (twoPopped ++ [.flush 0, .flush 1, .flush 1, .flush 0]) := by
  refine sequences_in_order tinyConfig {} [] (fun _ => 0) _ ?_
  refine ⟨trivial, trivial, trivial, trivial, trivial, trivial, trivial, trivial, trivial, trivial,
    trivial, trivial, ?_, ?_, ?_, ?_, trivial⟩
  · rintro mem k - hk (_ | _ | j) mem' k' hj hmem hk'
    · exact absurd rfl hj
    · cases hk
      cases hk'
      decide
    · cases hmem
  · rintro mem k - hk (_ | _ | j) mem' k' hj hmem hk'
    · cases hmem
    · exact absurd rfl hj
    · cases hmem
  · intro mem k hmem
    cases hmem
  · intro mem k hmem
    cases hmem

/-- The second thread is faster. -/
theorem numbers_inverted : ¬ Run.Along act (fun n a => InOrder (n.act a))
    (startFlushes tinyConfig {} [] fun _ => 0)
    (twoPopped ++ [.flush 1, .flush 0, .flush 1, .flush 0]) := by
  decide

end Kronos.Spec.FlushOrder
