import Kronos.Proofs.Served
import Kronos.Spec.Server

/-!
# An ingest request comes back as a row

What a handler takes out of a body, a row puts back under the same keys, as wide as
the field is (`echoes`). Every handler comes down to appends and removals, so a
server runs its database as a session does, with the answers noted beside it
(`Backing`).
-/

namespace Kronos

open Spec Server

/-! ## Numbers and names -/

theorem uint64_ofInt (n : Int) : ((UInt64.ofInt n).toNat : Int) = n % 2 ^ 64 := by
  rw [UInt64.ofInt, UInt64.toNat_ofNat']
  omega

theorem uint32_ofInt (n : Int) : ((UInt32.ofInt n).toNat : Int) = n % 2 ^ 32 := by
  rw [UInt32.ofInt, UInt32.toNat_ofNat']
  omega

theorem uint64_ofInt_toNat (n : UInt64) : UInt64.ofInt (n.toNat : Int) = n := by
  have hlt := n.toNat_lt
  refine UInt64.toNat_inj.mp ?_
  rw [UInt64.ofInt, UInt64.toNat_ofNat']
  omega

theorem event_type_name_parse {s : String} {t : EventType}
    (h : Event.parse_event_type s = some t) : Event.event_type_name t = s := by
  unfold Event.parse_event_type at h
  split_ifs at h with h1 h2 h3 h4 h5 h6 <;> cases h <;> subst_vars <;> rfl

/-! ## Arguments -/

theorem bind_ok {ε α β : Type} {x : Except ε α} {f : α → Except ε β} {b : β}
    (h : (x >>= f) = .ok b) : ∃ a, x = .ok a ∧ f a = .ok b := by
  cases x with
  | error err => cases h
  | ok a => exact ⟨a, rfl, h⟩

section
variable {α : Type} {conversion : Json → Option α} {key : String} {body v : Json} {a : α}

theorem at_ok (h : body.at_ key = .ok v) : body.find key = some v := by
  rw [Json.at_] at h
  split at h
  · next hfind => rw [hfind, Except.ok.inj h]
  · cases h

theorem get_ok (h : v.get conversion = .ok a) : conversion v = some a := by
  rw [Json.get] at h
  split at h
  · next hconv => rw [hconv, Except.ok.inj h]
  · cases h

/-- A value that is there was converted, one that is not is the default. -/
theorem value_ok {default : α} (h : body.value conversion key default = .ok a) :
    (∃ v, body.find key = some v ∧ conversion v = some a) ∨
      body.find key = none ∧ a = default := by
  cases body with
  | object members =>
      rw [Json.value] at h
      rw [Json.find]
      split at h
      · next v hfind => exact .inl ⟨v, hfind, get_ok h⟩
      · next hfind => exact .inr ⟨hfind, (Except.ok.inj h).symm⟩
  | _ => cases h

end

theorem event_type_of_ok {s : String} {t : EventType} (h : event_type_of s = .ok t) :
    Event.parse_event_type s = some t := by
  rw [event_type_of] at h
  split at h
  · next hparse => rw [hparse, Except.ok.inj h]
  · cases h

/-- A field that an integer may be under. -/
structure Field (body : Json) (key : String) (w : Width) (shown : Int) : Prop where
  sent : ∀ n, body.find key = some (.integer n) → shown = w.cast n
  left_out : body.find key = none → shown = 0

/-- A conversion casts integers to its type, as `shown` reads it. -/
def Casts {α : Type} (conversion : Json → Option α) (w : Width) (shown : α → Int) : Prop :=
  ∀ n a, conversion (.integer n) = some a → shown a = w.cast n

section
variable {lib : JsonLibrary} (hlib : Documented lib)

include hlib in
theorem casts_uint64 : Casts lib.get_uint64 (.unsigned 64) fun a => a.toNat := by
  intro n a h
  rw [hlib.uint64] at h
  rw [← Option.some.inj h]
  exact uint64_ofInt n

include hlib in
theorem casts_int64 : Casts lib.get_int64 (.signed 64) fun a => a.toInt := by
  intro n a h
  rw [hlib.int64] at h
  rw [← Option.some.inj h]
  exact Int64.toInt_ofInt

include hlib in
theorem casts_uint32 : Casts lib.get_uint32 (.unsigned 32) fun a => a.toNat := by
  intro n a h
  rw [hlib.uint32] at h
  rw [← Option.some.inj h]
  exact uint32_ofInt n

end

section
variable {α : Type} {conversion : Json → Option α} {w : Width} {shown : α → Int}
  (hcast : Casts conversion w shown) {body : Json} {key : String} {a : α}

include hcast in
theorem Casts.field {v : Json} (hfind : body.find key = some v) (h : conversion v = some a) :
    Field body key w (shown a) := by
  constructor
  · intro n hn
    rw [hfind] at hn
    rw [Option.some.inj hn] at h
    exact hcast n a h
  · intro hnone
    rw [hfind] at hnone
    cases hnone

include hcast in
theorem Casts.value {default : α} (hzero : shown default = 0)
    (h : body.value conversion key default = .ok a) : Field body key w (shown a) := by
  rcases value_ok h with ⟨v, hfind, hconv⟩ | ⟨hfind, rfl⟩
  · exact hcast.field hfind hconv
  · constructor
    · intro n hn
      rw [hfind] at hn
      cases hn
    · exact fun _ => hzero

end

/-- What the handler took out of the body, field by field. -/
structure Taken (body : Json) (symbol : String) (args : Event) : Prop where
  symbol : body.find "symbol" = some (.string symbol)
  event_type : body.find "event_type" = some (.string (Event.event_type_name args.event_type))
  timestamp_ns : Field body "timestamp_ns" (.unsigned 64) args.timestamp_ns.toNat
  price_ticks : Field body "price_ticks" (.signed 64) args.price_ticks.toInt
  bid_px_ticks : Field body "bid_px_ticks" (.signed 64) args.bid_px_ticks.toInt
  ask_px_ticks : Field body "ask_px_ticks" (.signed 64) args.ask_px_ticks.toInt
  quantity : Field body "quantity" (.unsigned 32) args.quantity.toNat
  bid_qty : Field body "bid_qty" (.unsigned 32) args.bid_qty.toNat
  ask_qty : Field body "ask_qty" (.unsigned 32) args.ask_qty.toNat
  order_id : Field body "order_id" (.unsigned 64) args.order_id.toNat

theorem ingest_args_taken {lib : JsonLibrary} (hlib : Documented lib) {body : Json}
    {symbol : String} {args : Event}
    (h : ingest_args lib body = .ok (symbol, args)) : Taken body symbol args := by
  obtain ⟨jsymbol, hsymbol, h⟩ := bind_ok h
  obtain ⟨_, hsymbol', h⟩ := bind_ok h
  obtain ⟨jtime, htime, h⟩ := bind_ok h
  obtain ⟨time, htime', h⟩ := bind_ok h
  obtain ⟨jtype, htype, h⟩ := bind_ok h
  obtain ⟨name, htype', h⟩ := bind_ok h
  obtain ⟨type, htype'', h⟩ := bind_ok h
  obtain ⟨_, hprice, h⟩ := bind_ok h
  obtain ⟨_, hbid, h⟩ := bind_ok h
  obtain ⟨_, hask, h⟩ := bind_ok h
  obtain ⟨_, hquantity, h⟩ := bind_ok h
  obtain ⟨_, hbid_qty, h⟩ := bind_ok h
  obtain ⟨_, hask_qty, h⟩ := bind_ok h
  obtain ⟨_, horder, h⟩ := bind_ok h
  cases h
  exact
    { symbol := by rw [at_ok hsymbol, (hlib.string ..).mp (get_ok hsymbol')]
      event_type := by
        rw [at_ok htype, (hlib.string ..).mp (get_ok htype'),
          event_type_name_parse (event_type_of_ok htype'')]
      timestamp_ns := (casts_uint64 hlib).field (at_ok htime) (get_ok htime')
      price_ticks := (casts_int64 hlib).value rfl hprice
      bid_px_ticks := (casts_int64 hlib).value rfl hbid
      ask_px_ticks := (casts_int64 hlib).value rfl hask
      quantity := (casts_uint32 hlib).value rfl hquantity
      bid_qty := (casts_uint32 hlib).value rfl hbid_qty
      ask_qty := (casts_uint32 hlib).value rfl hask_qty
      order_id := (casts_uint64 hlib).value rfl horder }

/-- The row of an event that was ingested gives its body back. -/
theorem Taken.echoes {body : Json} {symbol : String} {args : Event}
    (h : Taken body symbol args) (symbol_id : UInt32) (id : UInt64) :
    Echoes body id (row symbol { args with symbol_id, sequence_id := id }) := by
  have hfields : ∀ p ∈ numbers, ∃ shown, Field body p.1 p.2 shown ∧
      (row symbol { args with symbol_id, sequence_id := id }).find p.1 =
        some (.integer shown) := by
    intro p hp
    simp only [numbers, List.mem_cons, List.not_mem_nil, or_false] at hp
    rcases hp with rfl | rfl | rfl | rfl | rfl | rfl | rfl | rfl
    · exact ⟨_, h.timestamp_ns, rfl⟩
    · exact ⟨_, h.price_ticks, rfl⟩
    · exact ⟨_, h.bid_px_ticks, rfl⟩
    · exact ⟨_, h.ask_px_ticks, rfl⟩
    · exact ⟨_, h.quantity, rfl⟩
    · exact ⟨_, h.bid_qty, rfl⟩
    · exact ⟨_, h.ask_qty, rfl⟩
    · exact ⟨_, h.order_id, rfl⟩
  refine ⟨rfl, h.symbol.symm, h.event_type.symm, fun p hp n hn => ?_, fun p hp hnone => ?_⟩
  · obtain ⟨shown, hfield, hrow⟩ := hfields p hp
    rw [hrow, hfield.sent n hn]
  · obtain ⟨shown, hfield, hrow⟩ := hfields p hp
    rw [hrow, hfield.left_out hnone]

/-! ## Calls of the database -/

theorem append_id {db db' : DB} {symbol : Bytes} {args : Event} {height : Fin kMaxHeight}
    {io : AppendIO} {r : AppendResult} (h : db.append symbol args height io = .ok r db') :
    db.closed = false ∧ r.sequence_id = db.next_seq := by
  rw [DB.append] at h
  split at h
  · cases h
  · next hopen =>
      obtain ⟨_, -, ⟨r', hok, hid⟩ | ⟨err, herr⟩⟩ := log_and_insert_outcome
        { args with symbol_id := (db.intern symbol).1, sequence_id := db.next_seq } height io
        { (db.intern symbol).2 with next_seq := db.next_seq + 1 }
      · have heq := h.symm.trans hok
        cases heq
        exact ⟨Bool.eq_false_iff.mpr hopen, hid⟩
      · have heq := h.symm.trans herr
        cases heq

/-- The session goes on, by at most so many appends. -/
structure Further (a a' : Answered) (n : Nat) : Prop where
  live : Upheld a'
  attempts : a'.attempts ≤ a.attempts + n
  appended : ∀ p ∈ a.appended, p ∈ a'.appended

theorem append_attempts (a : Answered) (symbol : Bytes) (args : Event) (height : Fin kMaxHeight)
    (io : AppendIO) : (a.step (.append symbol args height io)).attempts ≤ a.attempts + 1 := by
  rw [Answered.step]
  split
  · exact Nat.le_succ _
  · split <;> exact Nat.le_refl _

theorem step_appended {a : Answered} {s : Step} {p : Bytes × Event} (h : p ∈ a.appended) :
    p ∈ (a.step s).appended := by
  cases s with
  | append symbol args height io =>
      rw [Answered.step]
      split
      · exact h
      · split
        · exact List.mem_append_left _ h
        · exact h
  | remove symbol timestamp_ns sequence_id height io =>
      rw [Answered.step]
      split <;> exact h
  | _ => exact h

theorem answered_db (a : Answered) (s : Step) : (a.step s).db = step a.db s := by
  cases s with
  | append symbol args height io =>
      rw [Answered.step]
      split
      · rfl
      · split <;> rfl
  | remove symbol timestamp_ns sequence_id height io =>
      rw [Answered.step]
      split <;> rfl
  | _ => rfl

section
variable {a : Answered} (h : Upheld a)

include h in
theorem append_further (hfew : a.attempts < 2 ^ 64) (symbol : Bytes) (args : Event)
    (height : Fin kMaxHeight) (io : AppendIO) :
    Further a (a.step (.append symbol args height io)) 1 ∧
      (a.step (.append symbol args height io)).removed = a.removed := by
  refine ⟨⟨h.append hfew .., append_attempts .., fun p hp => step_appended hp⟩, ?_⟩
  rw [Answered.step]
  split
  · rfl
  · split <;> rfl

theorem append_returned {symbol : Bytes} {args : Event} {height : Fin kMaxHeight} {io : AppendIO}
    {r : AppendResult} {db' : DB} (hcall : a.db.append symbol args height io = .ok r db') :
    ∃ symbol_id, (symbol, { args with symbol_id, sequence_id := r.sequence_id }) ∈
      (a.step (.append symbol args height io)).appended := by
  obtain ⟨hopen, hid⟩ := append_id hcall
  refine ⟨(a.db.intern symbol).1, ?_⟩
  rw [Answered.step, if_neg (by rw [hopen]; exact Bool.false_ne_true), hcall, hid]
  exact List.mem_append_right _ (List.mem_singleton.mpr rfl)

include h in
/-- The loop of a benchmark is appends. -/
theorem bench_further (env : Surroundings) (symbols : UInt32) (rounds i : Nat)
    (hfew : a.attempts + rounds ≤ 2 ^ 64) :
    ∃ a', a'.db = (bench_loop env symbols rounds i a.db).2 ∧ Further a a' rounds ∧
      a'.removed = a.removed := by
  induction rounds generalizing a i with
  | zero => exact ⟨a, rfl, ⟨h, Nat.le_refl _, fun _ hp => hp⟩, rfl⟩
  | succ rounds ih =>
      obtain ⟨hfurther, hremoved⟩ := append_further h (by omega)
        (symbol_of (bench_symbol (i % symbols.toNat))) (bench_event env i) (env.heights i)
        (env.io i)
      have hdb := answered_db a (.append (symbol_of (bench_symbol (i % symbols.toNat)))
        (bench_event env i) (env.heights i) (env.io i))
      have hle := hfurther.attempts
      rw [step] at hdb
      rw [bench_loop]
      split
      · next err db hcall =>
          rw [hcall] at hdb
          exact ⟨_, hdb, ⟨hfurther.live, by omega, hfurther.appended⟩, hremoved⟩
      · next r db hcall =>
          rw [hcall] at hdb
          obtain ⟨a', hdb', hfurther', hremoved'⟩ := ih hfurther.live (i + 1) (by omega)
          have hle' := hfurther'.attempts
          refine ⟨a', by rw [hdb', hdb]; rfl, ⟨hfurther'.live, by omega, fun p hp => ?_⟩,
            hremoved'.trans hremoved⟩
          exact hfurther'.appended p (hfurther.appended p hp)

end

/-! ## What a server keeps -/

/-- The session that the requests come to. -/
structure Backing (lib : JsonLibrary) (t : Serving) (a : Answered) : Prop where
  db : a.db = t.db
  live : Upheld a
  ingested : ∀ p ∈ t.ingested, ∃ symbol args symbol_id,
    ingest_args lib p.1 = .ok (symbol, args) ∧
      (symbol_of symbol, { args with symbol_id, sequence_id := p.2 }) ∈ a.appended
  deleted : ∀ e ∈ a.removed, (e.timestamp_ns, e.sequence_id) ∈ t.deleted

theorem Backing.further {lib : JsonLibrary} {t : Serving} {a a' : Answered} {n : Nat}
    (h : Backing lib t a) (hfurther : Further a a' n) {db : DB} {stopped : Bool}
    (hdb : a'.db = db) (hremoved : a'.removed = a.removed) :
    Backing lib { t with db, stopped } a' := by
  refine ⟨hdb, hfurther.live, fun p hp => ?_, fun e he => h.deleted e (hremoved ▸ he)⟩
  obtain ⟨symbol, args, symbol_id, hargs, hin⟩ := h.ingested p hp
  exact ⟨symbol, args, symbol_id, hargs, hfurther.appended _ hin⟩

section
variable {lib : JsonLibrary} {t : Serving} {a : Answered} (h : Backing lib t a)

/-- The step has been taken, by at most so many appends. -/
def Stepped (lib : JsonLibrary) (t' : Serving) (a : Answered) (n : Nat) : Prop :=
  ∃ a', Backing lib t' a' ∧ a'.attempts ≤ a.attempts + n

include h in
theorem Backing.still {n : Nat} {stopped : Bool} :
    Stepped lib { t with stopped } a n :=
  ⟨a, ⟨h.db, h.live, h.ingested, h.deleted⟩, Nat.le_add_right _ _⟩

theorem answered_written (r : AppendResult) :
    answered_id (some (.ok (written_body r))) = some r.sequence_id :=
  congrArg some (uint64_ofInt_toNat r.sequence_id)

include h in
theorem Backing.ingest (hopen : t.stopped = false) (hfew : a.attempts < 2 ^ 64)
    (env : Surroundings) (text : Bytes) :
    Stepped lib (t.step lib (.request env (.ingest_event text))) a 1 := by
  cases hparse : lib.parse text with
  | none =>
      simp only [Serving.step, hopen, handle, with_body, hparse]
      exact h.still
  | some body =>
      cases hargs : ingest_args lib body with
      | error reason =>
          simp only [Serving.step, hopen, handle, with_body, hparse, ingest_event, hargs,
            answered_id]
          exact h.still
      | ok p =>
          obtain ⟨symbol, args⟩ := p
          obtain ⟨hfurther, hremoved⟩ := append_further h.live hfew (symbol_of symbol) args
            (env.heights 0) (env.io 0)
          have hdb := answered_db a (.append (symbol_of symbol) args (env.heights 0) (env.io 0))
          rw [Spec.step, h.db] at hdb
          cases hcall : t.db.append (symbol_of symbol) args (env.heights 0) (env.io 0) with
          | error err db =>
              rw [hcall] at hdb
              simp only [Serving.step, hopen, handle, with_body, hparse, ingest_event, hargs, hcall,
                respond_written, answered_id]
              exact ⟨_, h.further hfurther hdb hremoved, hfurther.attempts⟩
          | ok r db =>
              rw [hcall] at hdb
              simp only [Serving.step, hopen, handle, with_body, hparse, ingest_event, hargs, hcall,
                respond_written, answered_written]
              have hnow : Backing lib { t with db, stopped := false } _ :=
                h.further hfurther hdb hremoved
              refine ⟨_, ⟨hdb, hnow.live, fun p hp => ?_, hnow.deleted⟩, hfurther.attempts⟩
              rcases List.mem_append.mp hp with hp | hp
              · exact hnow.ingested p hp
              · rw [List.mem_singleton.mp hp]
                rw [← h.db] at hcall
                obtain ⟨symbol_id, hin⟩ := append_returned hcall
                exact ⟨symbol, args, symbol_id, hargs, hin⟩

/-- A removal notes its tombstone when it returns. -/
theorem remove_noted (a : Answered) (symbol : Bytes) (timestamp_ns sequence_id : UInt64)
    (height : Fin kMaxHeight) (io : AppendIO) :
    (a.step (.remove symbol timestamp_ns sequence_id height io)).attempts = a.attempts ∧
      match a.db.remove symbol timestamp_ns sequence_id height io with
      | .ok _ _ => ∃ e : Event, e.timestamp_ns = timestamp_ns ∧ e.sequence_id = sequence_id ∧
          (a.step (.remove symbol timestamp_ns sequence_id height io)).removed = a.removed ++ [e]
      | .error _ _ =>
          (a.step (.remove symbol timestamp_ns sequence_id height io)).removed = a.removed := by
  rw [Answered.step]
  cases a.db.remove symbol timestamp_ns sequence_id height io with
  | error err db => exact ⟨rfl, rfl⟩
  | ok r db => exact ⟨rfl, _, rfl, rfl, rfl⟩

include h in
theorem Backing.delete (hopen : t.stopped = false) (env : Surroundings) (text : Bytes) :
    Stepped lib (t.step lib (.request env (.delete_event text))) a 0 := by
  cases hparse : lib.parse text with
  | none =>
      simp only [Serving.step, hopen, handle, with_body, hparse, Option.map_none]
      exact h.still
  | some body =>
      cases hargs : delete_args lib body with
      | error reason =>
          simp only [Serving.step, hopen, handle, with_body, hparse, delete_event, hargs,
            answered_id, Option.map_some]
          exact h.still
      | ok p =>
          obtain ⟨symbol, timestamp_ns, sequence_id⟩ := p
          have hlive := h.live.remove (symbol_of symbol) timestamp_ns sequence_id
            (env.heights 0) (env.io 0)
          have hdb := answered_db a (.remove (symbol_of symbol) timestamp_ns sequence_id
            (env.heights 0) (env.io 0))
          obtain ⟨hattempts, hremoved⟩ := remove_noted a (symbol_of symbol) timestamp_ns sequence_id
            (env.heights 0) (env.io 0)
          have hfurther : Further a (a.step (.remove (symbol_of symbol) timestamp_ns sequence_id
              (env.heights 0) (env.io 0))) 0 :=
            ⟨hlive, Nat.le_of_eq hattempts, fun p hp => step_appended hp⟩
          rw [Spec.step, h.db] at hdb
          rw [h.db] at hremoved
          cases hcall : t.db.remove (symbol_of symbol) timestamp_ns sequence_id (env.heights 0)
              (env.io 0) with
          | error err db =>
              rw [hcall] at hdb hremoved
              simp only [Serving.step, hopen, handle, with_body, hparse, delete_event, hargs, hcall,
                respond_written, answered_id, Option.map_some]
              exact ⟨_, h.further hfurther hdb hremoved, hfurther.attempts⟩
          | ok r db =>
              rw [hcall] at hdb hremoved
              obtain ⟨e, htime, hid, hremoved⟩ := hremoved
              simp only [Serving.step, hopen, handle, with_body, hparse, delete_event, hargs, hcall,
                respond_written, answered_written, Option.map_some]
              refine ⟨_, ⟨hdb, hlive, fun p hp => ?_, fun x hx => ?_⟩, hfurther.attempts⟩
              · obtain ⟨symbol', args, symbol_id, hingest, hin⟩ := h.ingested p hp
                exact ⟨symbol', args, symbol_id, hingest, step_appended hin⟩
              · rw [hremoved] at hx
                rcases List.mem_append.mp hx with hx | hx
                · exact List.mem_append_left _ (h.deleted x hx)
                · rw [List.mem_singleton.mp hx, htime, hid]
                  exact List.mem_append_right _ (List.mem_singleton.mpr rfl)

include h in
theorem Backing.query (hopen : t.stopped = false) (env : Surroundings) (text : Bytes) :
    Stepped lib (t.step lib (.request env (.query text))) a 0 := by
  cases hparse : lib.parse text with
  | none =>
      simp only [Serving.step, hopen, handle, with_body, hparse]
      exact h.still
  | some body =>
      simp only [Serving.step, hopen, handle, with_body, hparse]
      exact h.still

include h in
theorem Backing.benchmark (hopen : t.stopped = false) (env : Surroundings) (text : Bytes)
    (hfew : a.attempts + appendsOf lib (.request env (.benchmark_run text)) ≤ 2 ^ 64) :
    Stepped lib (t.step lib (.request env (.benchmark_run text))) a
      (appendsOf lib (.request env (.benchmark_run text))) := by
  cases hparse : lib.parse text with
  | none =>
      simp only [Serving.step, hopen, handle, with_body, hparse]
      exact h.still
  | some body =>
      cases hargs : bench_args lib body with
      | error reason =>
          simp only [Serving.step, hopen, handle, with_body, hparse, benchmark_run, hargs]
          exact h.still
      | ok p =>
          obtain ⟨bench_name, events, symbols⟩ := p
          have hcount : appendsOf lib (.request env (.benchmark_run text)) = events.toNat := by
            simp only [appendsOf, hparse, Option.map_some, hargs]
          rw [hcount] at hfew ⊢
          by_cases hname : bench_name ≠ "ingest"
          · simp only [Serving.step, hopen, handle, with_body, hparse, benchmark_run, hargs,
              if_pos hname]
            exact h.still
          · by_cases hzero : symbols = 0 ∧ events ≠ 0
            · simp only [Serving.step, hopen, handle, with_body, hparse, benchmark_run, hargs,
                if_neg hname, if_pos hzero]
              exact h.still
            · simp only [Serving.step, hopen, handle, with_body, hparse, benchmark_run, hargs,
                if_neg hname, if_neg hzero]
              obtain ⟨a', hdb, hfurther, hremoved⟩ :=
                bench_further h.live env symbols events.toNat 0 hfew
              rw [h.db] at hdb
              generalize bench_loop env symbols events.toNat 0 t.db = out at hdb ⊢
              obtain ⟨outcome, db⟩ := out
              cases outcome with
              | error err => exact ⟨a', h.further hfurther hdb hremoved, hfurther.attempts⟩
              | ok done => exact ⟨a', h.further hfurther hdb hremoved, hfurther.attempts⟩

theorem further_moved {db : DB} (hlive : Upheld { a with db }) : Further a { a with db } 0 :=
  ⟨hlive, Nat.le_refl _, fun _ hp => hp⟩

include h in
theorem Backing.background (hopen : t.stopped = false) {s : Step}
    (hproper : Proper t (.background s))
    (hfew : a.attempts + appendsOf lib (.background s) ≤ 2 ^ 64) :
    Stepped lib (t.step lib (.background s)) a (appendsOf lib (.background s)) := by
  obtain ⟨hcloses, hfresh, hremove⟩ := hproper
  rw [Serving.step, if_neg (by rw [hopen]; exact Bool.false_ne_true), ← h.db]
  have hdb := answered_db a s
  rw [← h.db] at hfresh
  cases s with
  | append symbol args height io =>
      obtain ⟨hfurther, hremoved⟩ := append_further h.live hfew symbol args height io
      exact ⟨_, h.further hfurther hdb hremoved, hfurther.attempts⟩
  | remove symbol timestamp_ns sequence_id height io => exact (hremove _ _ _ _ _ rfl).elim
  | rotate => exact ⟨_, h.further (further_moved h.live.rotate) hdb rfl, Nat.le_refl _⟩
  | flush_front => exact ⟨_, h.further (further_moved h.live.flush_front) hdb rfl, Nat.le_refl _⟩
  | compact =>
      exact ⟨_, h.further (further_moved (h.live.compact (hfresh rfl))) hdb rfl, Nat.le_refl _⟩
  | stop => exact absurd trivial hcloses
  | save_symbols => exact absurd trivial hcloses

include h in
theorem Backing.step {st : ServerStep} (hproper : Proper t st)
    (hfew : a.attempts + appendsOf lib st ≤ 2 ^ 64) :
    Stepped lib (t.step lib st) a (appendsOf lib st) := by
  cases hopen : t.stopped with
  | true =>
      have hstill : t.step lib st = t := by
        cases st <;> rw [Serving.step, if_pos hopen]
      rw [hstill]
      exact h.still
  | false =>
      cases st with
      | background s => exact h.background hopen hproper hfew
      | request env req =>
          cases req with
          | ingest_event text => exact h.ingest hopen hfew env text
          | delete_event text => exact h.delete hopen env text
          | query text => exact h.query hopen env text
          | benchmark_run text => exact h.benchmark hopen env text hfew

/-! ## A query -/

include h in
theorem Backing.gives_back (hlib : Documented lib) : GivesBack lib t := by
  intro p hp symbol args hargs hlive hkept env text body req hparse hquery hlo hhi htype hroom
  obtain ⟨symbol', args', symbol_id, hargs', hin⟩ := h.ingested p hp
  rw [hargs] at hargs'
  cases hargs'
  have hno : ∀ e ∈ a.removed, e.key ≠ (⟨symbol_id, args.timestamp_ns, p.2⟩ : Key) := by
    intro e he heq
    have hdeleted := h.deleted e he
    rw [show e.timestamp_ns = args.timestamp_ns from congrArg Key.timestamp_ns heq,
      show e.sequence_id = p.2 from congrArg Key.sequence_id heq] at hdeleted
    exact hkept hdeleted
  have hsymbol : req.symbol = symbol_of symbol := by
    obtain ⟨_, -, hq⟩ := bind_ok hquery
    obtain ⟨_, -, hq⟩ := bind_ok hq
    obtain ⟨_, -, hq⟩ := bind_ok hq
    obtain ⟨_, -, hq⟩ := bind_ok hq
    obtain ⟨_, -, hq⟩ := bind_ok hq
    obtain ⟨_, -, hq⟩ := bind_ok hq
    cases hq
    rfl
  have hserved := h.live.served _ hin hlive hno req ⟨hsymbol, hlo, hhi, htype⟩
  rw [h.db] at hserved
  obtain ⟨r, hcall, hrow⟩ := hserved hroom
  refine ⟨query_body symbol r, _, _, ?_, rfl, List.mem_map_of_mem hrow,
    (ingest_args_taken hlib hargs).echoes symbol_id p.2⟩
  simp only [handle, with_body, hparse, Server.query, hquery, hcall]

end

theorem backing_run (lib : JsonLibrary) (cfg : DBConfig) (heights : Nat → Fin kMaxHeight)
    (steps : List ServerStep)
    (hproper : Run.Along (Serving.step lib) Proper (Serving.start cfg heights) steps)
    (hfew : (steps.map (appendsOf lib)).sum ≤ 2 ^ 64) :
    ∃ a, Backing lib (steps.foldl (Serving.step lib) (Serving.start cfg heights)) a ∧
      a.attempts ≤ (steps.map (appendsOf lib)).sum := by
  induction steps using List.reverseRecOn with
  | nil => exact ⟨_, ⟨rfl, start_upheld cfg heights, nofun, nofun⟩, Nat.le_refl _⟩
  | append_singleton steps st ih =>
      obtain ⟨hfront, hlast, -⟩ := Run.along_append.mp hproper
      rw [List.map_append, List.sum_append, List.map_singleton, List.sum_singleton] at hfew ⊢
      obtain ⟨a, ha, hle⟩ := ih hfront (by omega)
      obtain ⟨a', ha', hle'⟩ := ha.step hlast (by omega)
      rw [List.foldl_append]
      exact ⟨a', ha', by omega⟩

/-- Whatever requests a server takes, well-formed or not, and whatever goes on beside
them: an ingest request that was answered comes back to every query that asks for it. -/
theorem ingested_given_back {lib : JsonLibrary} (hlib : Documented lib) (cfg : DBConfig)
    (heights : Nat → Fin kMaxHeight) (steps : List ServerStep)
    (hproper : Run.Along (Serving.step lib) Proper (Serving.start cfg heights) steps)
    (hfew : (steps.map (appendsOf lib)).sum ≤ 2 ^ 64) :
    GivesBack lib (steps.foldl (Serving.step lib) (Serving.start cfg heights)) := by
  obtain ⟨a, ha, -⟩ := backing_run lib cfg heights steps hproper hfew
  exact ha.gives_back hlib

/-- A library that knows two texts. -/
def tradeText : Bytes :=
  symbol_of "\x7b\"symbol\":\"A\",\"timestamp_ns\":7,\"event_type\":\"trade\"\x7d"
def askText : Bytes := symbol_of "\x7b\"symbol\":\"A\"\x7d"
def tradeBody : Json :=
  .object [("symbol", .string "A"), ("timestamp_ns", .integer 7), ("event_type", .string "trade")]
def askBody : Json := .object [("symbol", .string "A")]

def plainLibrary : JsonLibrary where
  parse text :=
    if text = tradeText then some tradeBody else if text = askText then some askBody else none
  get_string j := match j with | .string s => some s | _ => none
  get_uint64 j := match j with | .integer n => some (.ofInt n) | _ => none
  get_int64 j := match j with | .integer n => some (.ofInt n) | _ => none
  get_uint32 j := match j with | .integer n => some (.ofInt n) | _ => none

theorem plain_documented : Documented plainLibrary := by
  refine ⟨fun j s => ?_, fun _ => rfl, fun _ => rfl, fun _ => rfl⟩
  cases j <;> simp [plainLibrary]

def still : Surroundings := { heights := fun _ => 0, io := fun _ => {}, now := fun _ => 0 }

/-- A request that is no JSON, an ingest, and a flush. -/
def oneTrade : List ServerStep :=
  [.request still (.query []), .request still (.ingest_event tradeText), .background .rotate,
    .background .flush_front]

theorem ingested_given_back_trade :
    ∃ answer rows row, (handle plainLibrary still (.query askText)
        (oneTrade.foldl (Serving.step plainLibrary) (Serving.start unlogged fun _ => 0)).db).1 =
          some (.ok answer) ∧
      answer.find "rows" = some (.array rows) ∧ row ∈ rows ∧ Echoes tradeBody 1 row := by
  refine ingested_given_back plain_documented unlogged (fun _ => 0) oneTrade ?_ (by decide)
    (tradeBody, 1) (List.mem_singleton.mpr rfl) "A" { timestamp_ns := 7 } rfl (by decide)
    List.not_mem_nil still askText askBody { symbol := [65] } rfl rfl (by decide) (by decide)
    (.inl rfl) (by decide)
  exact ⟨trivial, trivial, ⟨nofun, nofun, nofun⟩, ⟨nofun, nofun, nofun⟩, trivial⟩

end Kronos
