import Kronos.Proofs.Server

/-!
# A rejected request changes no row

Most of what a request is rejected for is found before the database is called. A
write that fails in the log has given its symbol an id by then, and an append has
used up a sequence id. The new id is nobody else's, so no event has it and a query
for the symbol is still without rows.
-/

namespace Kronos

open Spec Server

/-- A rejected request leaves the database alone, but for a symbol with its id, a
sequence id, and the log. -/
def Unchanged (db db' : DB) : Prop :=
  db' = db ∨ ∃ symbol next_seq, Logged { (db.intern symbol).2 with next_seq } db'

theorem append_unchanged {db db' : DB} {symbol : Bytes} {args : Event} {height : Fin kMaxHeight}
    {io : AppendIO} {err : DBError} (h : db.append symbol args height io = .error err db') :
    Unchanged db db' := by
  rw [DB.append] at h
  split at h
  · cases h
    exact .inl rfl
  · obtain ⟨db'', hlogged, ⟨r, hok, -⟩ | ⟨err', herr⟩⟩ := log_and_insert_outcome
      { args with symbol_id := (db.intern symbol).1, sequence_id := db.next_seq } height io
      { (db.intern symbol).2 with next_seq := db.next_seq + 1 }
    · have heq := h.symm.trans hok
      cases heq
    · have heq := h.symm.trans herr
      cases heq
      exact .inr ⟨symbol, _, hlogged⟩

theorem remove_unchanged {db db' : DB} {symbol : Bytes} {timestamp_ns sequence_id : UInt64}
    {height : Fin kMaxHeight} {io : AppendIO} {err : DBError}
    (h : db.remove symbol timestamp_ns sequence_id height io = .error err db') :
    Unchanged db db' := by
  rw [DB.remove] at h
  split at h
  · cases h
    exact .inl rfl
  · obtain ⟨db'', hlogged, ⟨r, hok, -⟩ | ⟨err', herr⟩⟩ := log_and_insert_outcome
      { timestamp_ns, symbol_id := (db.intern symbol).1, sequence_id, event_type := .Tombstone }
      height io (db.intern symbol).2
    · have heq := h.symm.trans hok
      cases heq
    · have heq := h.symm.trans herr
      cases heq
      exact .inr ⟨symbol, (db.intern symbol).2.next_seq, hlogged⟩

section
variable {lib : JsonLibrary} {env : Surroundings} {db : DB} {body : Json}

theorem ingest_unchanged (h : Rejected (some (ingest_event lib env body db).1)) :
    Unchanged db (ingest_event lib env body db).2 := by
  rw [ingest_event] at h ⊢
  split
  · exact .inl rfl
  · next symbol args hargs =>
      rw [hargs] at h
      dsimp only at h
      cases hcall : db.append (symbol_of symbol) args (env.heights 0) (env.io 0) with
      | error err db' => exact append_unchanged hcall
      | ok r db' =>
          rw [hcall] at h
          exact h.elim

theorem delete_unchanged (h : Rejected (some (delete_event lib env body db).1)) :
    Unchanged db (delete_event lib env body db).2 := by
  rw [delete_event] at h ⊢
  split
  · exact .inl rfl
  · next symbol timestamp_ns sequence_id hargs =>
      rw [hargs] at h
      dsimp only at h
      cases hcall : db.remove (symbol_of symbol) timestamp_ns sequence_id (env.heights 0)
          (env.io 0) with
      | error err db' => exact remove_unchanged hcall
      | ok r db' =>
          rw [hcall] at h
          exact h.elim

/-- A benchmark that fails on the way is answered with 500. -/
theorem benchmark_unchanged (h : Rejected (benchmark_run lib env body db).1) :
    Unchanged db (benchmark_run lib env body db).2 := by
  rw [benchmark_run] at h ⊢
  split
  · exact .inl rfl
  · next bench_name events symbols hargs =>
      rw [hargs] at h
      dsimp only at h
      split at h
      · next hname =>
          rw [if_pos hname]
          exact .inl rfl
      · split at h
        · exact h.elim
        · split at h
          · cases h
          · exact h.elim

theorem rejected_unchanged {req : Request} (h : Rejected (handle lib env req db).1) :
    Unchanged db (handle lib env req db).2 := by
  cases req with
  | ingest_event text =>
      rw [handle, with_body] at h ⊢
      split
      · exact .inl rfl
      · next body hparse =>
          rw [hparse] at h
          exact ingest_unchanged h
  | delete_event text =>
      rw [handle, with_body] at h ⊢
      split
      · exact .inl rfl
      · next body hparse =>
          rw [hparse] at h
          exact delete_unchanged h
  | query text =>
      rw [handle, with_body]
      split <;> exact .inl rfl
  | benchmark_run text =>
      rw [handle, with_body] at h ⊢
      split
      · exact .inl rfl
      · next body hparse =>
          rw [hparse] at h
          exact benchmark_unchanged h

end

/-! ## Rows -/

namespace Upheld

variable {t : Answered} (h : Upheld t)

include h in
theorem interned {x : Event} (hx : x ∈ visible t.db) :
    ∃ name, t.db.symbols.lookup name = some x.symbol_id := by
  rcases h.known x hx with hx | hx
  · obtain ⟨p, hp, rfl⟩ := List.mem_map.mp hx
    exact ⟨p.1, h.named p hp⟩
  · exact h.tombstones x hx

include h in
theorem rows_eq {req : QueryRequest} {sym_id : UInt32}
    (hsym : t.db.symbols.lookup req.symbol = some sym_id) :
    rowsOf t.db req = .ok ((((visible t.db).filter
      (inRange (req.start_key sym_id) (req.end_key sym_id))).filter req.wants).take
        req.row_limit) := by
  obtain ⟨r, hquery, hrows⟩ := query_visible h.opened h.filed.mems h.tabled hsym
  rw [rowsOf, hquery]
  exact congrArg Except.ok hrows

theorem rows_unknown {db : DB} (hopen : db.closed = false) {req : QueryRequest}
    (hsym : db.symbols.lookup req.symbol = none) : rowsOf db req = .ok [] := by
  rw [rowsOf, DB.query_unknown hopen hsym]
  rfl

include h in
/-- The id that the next symbol gets is on no event. -/
theorem no_rows {req : QueryRequest} (hsmall : t.db.symbols.size < 2 ^ 32 - 1) :
    (visible t.db).filter (inRange (req.start_key t.db.symbols.next_id)
      (req.end_key t.db.symbols.next_id)) = [] := by
  obtain ⟨hnext, hids⟩ := h.numbered hsmall
  refine List.filter_eq_nil_iff.mpr fun x hx hin => ?_
  obtain ⟨name, hname⟩ := h.interned hx
  have hid := ((inRange_iff req t.db.symbols.next_id x).mp hin).1
  have hle := hids name x.symbol_id hname
  rw [hid] at hle
  omega

include h in
theorem rows_unchanged (hsmall : t.db.symbols.size < 2 ^ 32 - 1) {db' : DB}
    (hu : Unchanged t.db db') (req : QueryRequest) : rowsOf db' req = rowsOf t.db req := by
  rcases hu with rfl | ⟨symbol, next_seq, hlogged⟩
  · rfl
  · have hq : Quiet t.db db' :=
      Quiet.trans (b := { (t.db.intern symbol).2 with next_seq }) ⟨rfl, rfl, rfl, rfl, rfl, rfl⟩
        hlogged.quiet
    have hsymbols : db'.symbols = (t.db.intern symbol).2.symbols := hlogged.symbols
    have hclosed : db'.closed = t.db.closed := hlogged.closed
    -- what is served does not hang on the counter of sequence ids
    have hrows : ∀ sym_id, db'.symbols.lookup req.symbol = some sym_id →
        rowsOf db' req = .ok ((((visible t.db).filter
          (inRange (req.start_key sym_id) (req.end_key sym_id))).filter req.wants).take
            req.row_limit) := by
      intro sym_id hsym
      have hlive : Upheld { t with db := { db' with next_seq := t.db.next_seq } } := by
        refine h.quiet ⟨hq.active, hq.imm, hq.levels, hq.sst_seq, hq.ssts, hq.cfg⟩ hclosed
          (fun name id hname => ?_) ?_ (Nat.le_refl _) h.next
        · show db'.symbols.lookup name = some id
          rw [hsymbols]
          exact intern_keeps t.db symbol name id hname
        · show IdsCount db'.symbols
          rw [hsymbols]
          exact h.numbered.intern symbol
      have heq := hlive.rows_eq hsym
      rw [← hq.visible]
      exact heq
    cases hsym : t.db.symbols.lookup req.symbol with
    | some sym_id =>
        rw [h.rows_eq hsym]
        refine hrows sym_id ?_
        rw [hsymbols]
        exact intern_keeps t.db symbol req.symbol sym_id hsym
    | none =>
        rw [rows_unknown h.opened hsym]
        cases hsym' : db'.symbols.lookup req.symbol with
        | none => exact rows_unknown (hclosed.trans h.opened) hsym'
        | some sym_id =>
            -- the symbol is the one that has just got an id
            have hid : sym_id = t.db.symbols.next_id := by
              rw [hsymbols] at hsym'
              rcases intern_cases t.db symbol with ⟨-, heq⟩ | ⟨-, -, file, heq⟩ <;>
                rw [heq] at hsym'
              · rw [hsym] at hsym'
                cases hsym'
              · by_cases hname : req.symbol = symbol
                · rw [hname, SymbolTable.lookup, AList.lookup_insert] at hsym'
                  exact (Option.some.inj hsym').symm
                · rw [SymbolTable.lookup, AList.lookup_insert_ne hname] at hsym'
                  rw [SymbolTable.lookup, hsym'] at hsym
                  cases hsym
            rw [hrows sym_id hsym', hid, h.no_rows hsmall, List.filter_nil, List.take_nil]

end Upheld

/-- Whatever requests a server has taken and whatever has gone on beside them, a request
that is answered with 400 changes the rows of no query. -/
theorem rejected_keeps_rows (lib : JsonLibrary) (cfg : DBConfig) (heights : Nat → Fin kMaxHeight)
    (steps : List ServerStep)
    (hproper : Run.Along (Serving.step lib) Proper (Serving.start cfg heights) steps)
    (hfew : (steps.map (appendsOf lib)).sum ≤ 2 ^ 64) :
    RejectedKeeps lib (steps.foldl (Serving.step lib) (Serving.start cfg heights)) := by
  intro hsmall env req hrejected asked
  obtain ⟨a, ha, -⟩ := backing_run lib cfg heights steps hproper hfew
  rw [← ha.db] at hsmall hrejected ⊢
  exact ha.live.rows_unchanged hsmall (rejected_unchanged hrejected) asked

/-- Nothing can be written to the log. -/
def full : Surroundings := { still with io := fun _ => { stored := 0 } }

theorem rejected_keeps_rows_logged :
    let db := (oneTrade.foldl (Serving.step plainLibrary) (Serving.start {} fun _ => 0)).db
    rowsOf (handle plainLibrary full (.ingest_event tradeText) db).2 { symbol := [65] } =
      rowsOf db { symbol := [65] } := by
  refine rejected_keeps_rows plainLibrary {} (fun _ => 0) oneTrade ?_ (by decide) (by decide)
    full (.ingest_event tradeText) rfl { symbol := [65] }
  exact ⟨trivial, trivial, ⟨nofun, nofun, nofun⟩, ⟨nofun, nofun, nofun⟩, trivial⟩

end Kronos
