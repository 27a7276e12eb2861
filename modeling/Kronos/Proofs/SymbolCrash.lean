import Kronos.Proofs.Symbols

/-!
# Names and ids over crashes

A crash leaves a symbol file that is whole entries and then perhaps part of
one. What was answered is lost in two ways. `load` leaves the part of an entry
where it is, and what is appended behind it later is read as its rest. And
`flush` empties the file before it writes it, so a crash in it can leave names
out. Where neither happens and no id is given out twice, every name keeps its
id over any number of sessions.
-/

namespace Kronos.Spec.Symbols

open Framing

/-- The file ends with a whole entry. -/
def Whole (file : Bytes) : Prop := symbolFormat.clean file = file.length

/-- What has to hold before an entry is appended: it would not stand behind part
of another, and its id is nobody's. -/
def Appendable (s : Symbols) (name : Bytes) : Prop :=
  s.table.lookup name = none →
    Whole (s.file.getD []) ∧ ∀ n, s.table.lookup n ≠ some s.table.next_id

def Untorn (s : Symbols) : SymbolEvent → Prop
  | .call (.intern name) => Appendable s name
  | .torn_intern name k => 0 < k → Appendable s name
  -- the entries of the names that were answered are written by then
  | .torn_flush walk k => ∃ j, (SymbolTable.flush_walk ((s.table.walked walk).take j)).length ≤ k ∧
      ∀ p ∈ s.told, (⟨p.1, p.2⟩ : Sigma fun _ : Bytes => UInt32) ∈ (s.table.walked walk).take j
  | .call _ => True

/-! ## The file after a write -/

theorem entriesIn_append {a : Bytes} (h : Whole a) (b : Bytes) :
    entriesIn (a ++ b) = entriesIn a ++ entriesIn b := by
  rw [entriesIn, Format.scan_append b 0 h, List.map_append, Format.scan_map_snd b _ 0,
    entriesIn, entriesIn]

theorem entriesIn_none {file : Bytes} (h : symbolFormat.parse file = none) : entriesIn file = [] := by
  rw [entriesIn, Format.scan_none h]
  rfl

theorem entriesIn_entry (id : UInt32) {name : Bytes} (h : name.length ≤ 65535) :
    entriesIn (SymbolTable.entry id name) = [(id, name)] := by
  have hshort : ∀ p ∈ [(⟨name, id⟩ : Sigma fun _ : Bytes => UInt32)], p.1.length ≤ 65535 :=
    fun p hp => by rw [List.mem_singleton.mp hp]; exact h
  have hwalk := (entriesIn_walk hshort symbolFormat_nil).1
  rwa [List.append_nil, SymbolTable.flush_walk, List.flatMap_singleton] at hwalk

/-- Of an entry, a cut leaves all or nothing that is read. -/
theorem entriesIn_cut (id : UInt32) {name : Bytes} (h : name.length ≤ 65535) (k : Nat) :
    entriesIn ((SymbolTable.entry id name).take k) = [(id, name)] ∨
      entriesIn ((SymbolTable.entry id name).take k) = [] := by
  by_cases hk : (SymbolTable.entry id name).length ≤ k
  · rw [List.take_of_length_le hk]
    exact .inl (entriesIn_entry id h)
  · refine .inr (entriesIn_none (Format.parse_prefix (symbolFormat_entry id h)
      (List.take_prefix _ _) ?_))
    rw [List.length_take]
    omega

theorem grow_file (s : Symbols) (data : Bytes) :
    (s.grow data).file.getD [] = s.file.getD [] ++ data ∧ (s.grow data).table = s.table ∧
      (s.grow data).told = s.told := by
  rw [grow]
  split
  · next h => exact ⟨by rw [h, List.append_nil], rfl, rfl⟩
  · exact ⟨rfl, rfl, rfl⟩

/-! ## The invariant -/

/-- The table and the entries of the file say the same, and no id is two names'. -/
structure Settled (s : Symbols) : Prop where
  told : ∀ p ∈ s.told, (p.2, p.1) ∈ entriesIn (s.file.getD [])
  known : ∀ name id, s.table.lookup name = some id ↔ (id, name) ∈ entriesIn (s.file.getD [])
  names : ((entriesIn (s.file.getD [])).map Prod.snd).Nodup
  owner : ∀ p ∈ entriesIn (s.file.getD []), ∀ q ∈ entriesIn (s.file.getD []),
    p.1 = q.1 → p.2 = q.2

theorem Settled.kept {s : Symbols} (h : Settled s) : Kept s :=
  ⟨fun p hp => (h.known _ _).mpr (h.told p hp),
    fun p hp _ hname => h.owner _ ((h.known _ _).mp hname) _ (h.told p hp) rfl,
    fun p hp q hq => h.owner _ (h.told p hp) _ (h.told q hq)⟩

theorem settled_new : Settled {} := by
  have hnone : entriesIn [] = [] := entriesIn_none symbolFormat_nil
  refine ⟨nofun, fun name id => ⟨nofun, fun hin => ?_⟩, ?_, fun p hp => ?_⟩
  · rw [Option.getD_none, hnone] at hin
    cases hin
  · rw [Option.getD_none, hnone]
    exact List.nodup_nil
  · rw [Option.getD_none, hnone] at hp
    cases hp

/-- A file whose entries have names and ids of their own is loaded as it is. -/
theorem settled_reload {s : Symbols} (htold : ∀ p ∈ s.told, (p.2, p.1) ∈ entriesIn (s.file.getD []))
    (hnames : ((entriesIn (s.file.getD [])).map Prod.snd).Nodup)
    (howner : ∀ p ∈ entriesIn (s.file.getD []), ∀ q ∈ entriesIn (s.file.getD []),
      p.1 = q.1 → p.2 = q.2) : Settled s.reload := by
  refine ⟨htold, fun name id => ?_, hnames, howner⟩
  rw [reload_table, SymbolTable.load_eq]
  exact SymbolTable.lookup_iff hnames

/-- An entry more, under a name and an id that no other has. -/
theorem owner_append {es : List (UInt32 × Bytes)} {name : Bytes} {id : UInt32}
    (hnames : (es.map Prod.snd).Nodup) (howner : ∀ p ∈ es, ∀ q ∈ es, p.1 = q.1 → p.2 = q.2)
    (hname : name ∉ es.map Prod.snd) (hid : id ∉ es.map Prod.fst) :
    ((es ++ [(id, name)]).map Prod.snd).Nodup ∧
      ∀ p ∈ es ++ [(id, name)], ∀ q ∈ es ++ [(id, name)], p.1 = q.1 → p.2 = q.2 := by
  constructor
  · rw [List.map_append, List.map_singleton]
    refine List.nodup_append.mpr ⟨hnames, List.nodup_singleton _, fun x hx y hy heq => hname ?_⟩
    have hy : y = name := List.mem_singleton.mp hy
    rw [← hy, ← heq]
    exact hx
  · intro p hp q hq heq
    rcases List.mem_append.mp hp with hp | hp <;> rcases List.mem_append.mp hq with hq | hq
    · exact howner p hp q hq heq
    · have hpid : p.1 = id := by rw [heq, List.mem_singleton.mp hq]
      exact absurd (hpid ▸ List.mem_map_of_mem hp) hid
    · have hqid : q.1 = id := by rw [← heq, List.mem_singleton.mp hp]
      exact absurd (hqid ▸ List.mem_map_of_mem hq) hid
    · rw [List.mem_singleton.mp hp, List.mem_singleton.mp hq]

/-- Before a new name, the entries of the file are others'. -/
theorem Settled.new {s : Symbols} (h : Settled s) {name : Bytes}
    (hlook : s.table.lookup name = none)
    (hfresh : ∀ n, s.table.lookup n ≠ some s.table.next_id) :
    name ∉ (entriesIn (s.file.getD [])).map Prod.snd ∧
      s.table.next_id ∉ (entriesIn (s.file.getD [])).map Prod.fst := by
  constructor
  · intro hin
    obtain ⟨p, hp, rfl⟩ := List.mem_map.mp hin
    rw [(h.known p.2 p.1).mpr hp] at hlook
    cases hlook
  · intro hin
    obtain ⟨p, hp, hpid⟩ := List.mem_map.mp hin
    exact hfresh p.2 (hpid ▸ (h.known p.2 p.1).mpr hp)

/-! ## The events -/

theorem settled_intern {s : Symbols} (h : Settled s) {name : Bytes} (hshort : name.length ≤ 65535)
    (ha : Appendable s name) : Settled (s.call (.intern name)) := by
  cases hlook : s.table.lookup name with
  | some id =>
      rw [call_known hlook]
      refine ⟨fun p hp => ?_, h.known, h.names, h.owner⟩
      rcases List.mem_append.mp hp with hp | hp
      · exact h.told p hp
      · rw [List.mem_singleton.mp hp]
        exact (h.known _ _).mp hlook
  | none =>
      obtain ⟨hwhole, hfresh⟩ := ha hlook
      obtain ⟨hname, hid⟩ := h.new hlook hfresh
      have hcall := call_new hlook
      have hentries : entriesIn ((s.call (.intern name)).file.getD []) =
          entriesIn (s.file.getD []) ++ [(s.table.next_id, name)] := by
        rw [hcall, Option.getD_some, entriesIn_append hwhole, entriesIn_entry _ hshort]
      obtain ⟨hnames, howner⟩ := owner_append h.names h.owner hname hid
      refine ⟨fun p hp => ?_, fun n i => ?_, ?_, ?_⟩
      · rw [hentries]
        rw [hcall] at hp
        rcases List.mem_append.mp hp with hp | hp
        · exact List.mem_append_left _ (h.told p hp)
        · rw [List.mem_singleton.mp hp]
          exact List.mem_append_right _ (List.mem_singleton.mpr rfl)
      · rw [hentries, List.mem_append, List.mem_singleton, ← h.known, lookup_call_new hlook,
          Prod.mk.injEq, or_comm, and_comm (a := n = name)]
      · rw [hentries]; exact hnames
      · rw [hentries]; exact howner

theorem settled_flush {s : Symbols} (h : Settled s) (walk : List (Sigma fun _ : Bytes => UInt32)) :
    Settled (s.call (.flush walk)) := by
  have hmem : ∀ n i, (⟨n, i⟩ : Sigma fun _ : Bytes => UInt32) ∈ s.table.walked walk ↔
      s.table.lookup n = some i := fun n i => (walked_perm _ _).mem_iff.trans mem_entries
  have hshort : ∀ p ∈ s.table.walked walk, p.1.length ≤ 65535 := fun p hp =>
    entriesIn_short _ _ ((h.known p.1 p.2).mp ((hmem p.1 p.2).mp hp))
  obtain ⟨hentries, -⟩ := entriesIn_walk hshort symbolFormat_nil
  rw [List.append_nil] at hentries
  have hin : ∀ n i, (i, n) ∈ walkEntries (s.table.walked walk) ↔ s.table.lookup n = some i :=
    fun n i => by
      rw [← hmem, walkEntries, List.mem_map]
      constructor
      · rintro ⟨p, hp, heq⟩
        cases heq
        exact hp
      · exact fun hp => ⟨_, hp, rfl⟩
  have hfile : entriesIn ((s.call (.flush walk)).file.getD []) =
      walkEntries (s.table.walked walk) := hentries
  refine ⟨fun p hp => ?_, fun n i => ?_, ?_, fun p hp q hq => ?_⟩
  · rw [hfile, hin, h.known]
    exact h.told p hp
  · rw [hfile, hin]
    rfl
  · rw [hfile, walkEntries, List.map_map]
    exact ((walked_perm s.table walk).map Sigma.fst).nodup_iff.mpr s.table.name_to_id.keys_nodup
  · rw [hfile] at hp hq
    exact h.owner p ((h.known _ _).mp ((hin _ _).mp hp)) q ((h.known _ _).mp ((hin _ _).mp hq))

theorem settled_torn_intern {s : Symbols} (h : Settled s) {name : Bytes}
    (hshort : name.length ≤ 65535) {k : Nat} (ha : 0 < k → Appendable s name) :
    Settled (s.event (.torn_intern name k)) := by
  rcases Nat.eq_zero_or_pos k with rfl | hk
  · have hevent : s.event (.torn_intern name 0) = s.reload := by
      simp only [event, List.take_zero, grow, if_true]
    rw [hevent]
    exact settled_reload h.told h.names h.owner
  cases hlook : s.table.lookup name with
  | some id =>
      have hevent : s.event (.torn_intern name k) = s.reload := by
        simp only [event, SymbolTable.intern_known hlook, List.take_nil, grow, if_true]
      rw [hevent]
      exact settled_reload h.told h.names h.owner
  | none =>
      obtain ⟨hwhole, hfresh⟩ := ha hk hlook
      obtain ⟨hname, hid⟩ := h.new hlook hfresh
      have hevent : s.event (.torn_intern name k) =
          (s.grow ((SymbolTable.entry s.table.next_id name).take k)).reload := by
        simp only [event, SymbolTable.intern_new hlook]
      obtain ⟨hfile, -, htold⟩ := grow_file s ((SymbolTable.entry s.table.next_id name).take k)
      rw [hevent]
      rcases entriesIn_cut s.table.next_id hshort k with hcut | hcut <;>
        have hentries := entriesIn_append hwhole ((SymbolTable.entry s.table.next_id name).take k) <;>
        rw [← hfile, hcut] at hentries
      · obtain ⟨hnames, howner⟩ := owner_append h.names h.owner hname hid
        refine settled_reload (fun p hp => ?_) (hentries ▸ hnames) (hentries ▸ howner)
        rw [hentries]
        exact List.mem_append_left _ (h.told p (htold ▸ hp))
      · rw [List.append_nil] at hentries
        exact settled_reload (fun p hp => hentries ▸ h.told p (htold ▸ hp)) (hentries ▸ h.names)
          (hentries ▸ h.owner)

theorem settled_torn_flush {s : Symbols} (h : Settled s)
    (walk : List (Sigma fun _ : Bytes => UInt32)) {k j : Nat}
    (hj : (SymbolTable.flush_walk ((s.table.walked walk).take j)).length ≤ k)
    (htold : ∀ p ∈ s.told,
      (⟨p.1, p.2⟩ : Sigma fun _ : Bytes => UInt32) ∈ (s.table.walked walk).take j) :
    Settled (s.event (.torn_flush walk k)) := by
  have hmem : ∀ p ∈ s.table.walked walk, (p.2, p.1) ∈ entriesIn (s.file.getD []) := fun p hp =>
    (h.known p.1 p.2).mp (mem_entries.mp ((walked_perm _ _).subset hp))
  have hshort : ∀ p ∈ s.table.walked walk, p.1.length ≤ 65535 := fun p hp =>
    entriesIn_short _ _ (hmem p hp)
  have henc : ∀ p ∈ s.table.walked walk, symbolFormat.parse (SymbolTable.entry p.2 p.1) =
      some ((p.2, p.1), (SymbolTable.entry p.2 p.1).length) := fun p hp =>
    symbolFormat_entry p.2 (hshort p hp)
  obtain ⟨i, tail, htake, htail, hmax⟩ := Format.take_records henc symbolFormat_nil k
  have hleft := fun p (hp : p ∈ (s.table.walked walk).take i) => List.mem_of_mem_take hp
  obtain ⟨hentries, -⟩ := entriesIn_walk (fun p hp => hshort p (hleft p hp)) htail
  have hfile : entriesIn (((SymbolTable.flush_walk (s.table.walked walk)).take k)) =
      walkEntries ((s.table.walked walk).take i) := by
    rw [← hentries, SymbolTable.flush_walk, htake, SymbolTable.flush_walk]
  refine settled_reload (fun p hp => ?_) ?_ fun p hp q hq => ?_
  · rw [Option.getD_some, hfile, walkEntries]
    exact List.mem_map.mpr ⟨_, (hmax j hj).subset (htold p hp), rfl⟩
  · rw [Option.getD_some, hfile, walkEntries, List.map_map]
    refine List.Nodup.sublist ((List.take_sublist _ _).map _) ?_
    exact ((walked_perm s.table walk).map Sigma.fst).nodup_iff.mpr s.table.name_to_id.keys_nodup
  · rw [Option.getD_some, hfile, walkEntries] at hp hq
    obtain ⟨v, hv, rfl⟩ := List.mem_map.mp hp
    obtain ⟨w, hw, rfl⟩ := List.mem_map.mp hq
    exact h.owner _ (hmem v (hleft v hv)) _ (hmem w (hleft w hw))

theorem settled_event {s : Symbols} (h : Settled s) {e : SymbolEvent}
    (hshort : ∀ name ∈ e.name?, name.length ≤ 65535) (hu : Untorn s e) : Settled (s.event e) := by
  cases e with
  | call c =>
      cases c with
      | intern name => exact settled_intern h (hshort name rfl) hu
      | flush walk => exact settled_flush h walk
      | reload => exact settled_reload h.told h.names h.owner
  | torn_intern name k => exact settled_torn_intern h (hshort name rfl) hu
  | torn_flush walk k =>
      obtain ⟨j, hj, htold⟩ := hu
      exact settled_torn_flush h walk hj htold

theorem settled_along {events : List SymbolEvent} {s : Symbols} (h : Settled s)
    (hshort : ∀ e ∈ events, ∀ name ∈ e.name?, name.length ≤ 65535)
    (hu : Run.Along event Untorn s events) :
    Run.Along event (fun s e => (s.event e).Kept) s events := by
  induction events generalizing s with
  | nil => trivial
  | cons e events ih =>
      have hnext := settled_event h (hshort e List.mem_cons_self) hu.1
      exact ⟨hnext.kept, ih hnext (fun f hf => hshort f (List.mem_cons_of_mem _ hf)) hu.2⟩

/-- As long as no entry is appended behind part of one, or under an id that is
taken, and no `flush` is cut off before the names that were answered, ids and
names stay together. -/
theorem symbols_kept (events : List SymbolEvent)
    (hshort : ∀ e ∈ events, ∀ name ∈ e.name?, name.length ≤ 65535)
    (hu : Run.Along event Untorn {} events) :
    Run.Along event (fun s e => (s.event e).Kept) {} events :=
  settled_along settled_new hshort hu

/-- A crash in the second name's append. -/
theorem symbols_kept_torn : Run.Along event (fun s e => (s.event e).Kept) {}
    [.call (.intern [65]), .torn_intern [66] 3, .call .reload] := by
  refine symbols_kept _ (by decide)
    ⟨fun _ => ⟨?_, nofun⟩, fun _ _ => ⟨?_, fun n => ?_⟩, trivial, trivial⟩
  · exact Format.clean_none symbolFormat_nil
  · have hshort : ∀ p ∈ [(⟨[65], 1⟩ : Sigma fun _ : Bytes => UInt32)], p.1.length ≤ 65535 :=
      by decide
    have hwhole := (entriesIn_walk hshort symbolFormat_nil).2
    rw [List.append_nil] at hwhole
    exact hwhole
  · change ((∅ : AList _).insert [65] 1).lookup n ≠ some 2
    by_cases hn : n = [65]
    · rw [hn, AList.lookup_insert]
      decide
    · rw [AList.lookup_insert_ne hn]
      exact nofun

/-- A crash right after `flush` has emptied the file. -/
theorem emptied_file_forgets : ¬ Run.Along event (fun s e => (s.event e).Kept) {}
    [.call (.intern [65]), .torn_flush [] 0] := by
  intro h
  have hid := h.2.1.ids ([65], 1) (List.mem_singleton.mpr rfl)
  have hload : (({} : Symbols).event (.call (.intern [65]))).event (.torn_flush [] 0) =
      { table := SymbolTable.load [], file := some [], told := [([65], 1)] } := rfl
  rw [hload, SymbolTable.load_eq, entriesIn_none symbolFormat_nil] at hid
  cases hid

end Kronos.Spec.Symbols
