import Kronos.Proofs.SymbolFile

/-!
# A symbol table and its file say the same

The file holds an entry for every name of the table, in some order, whether the
entries were appended one by one or written all at once. Entries that can say
their length are read back, so a table that is loaded is the one that was left,
up to order; ids are below the next one as long as fewer than 2^32 - 1 names
were given any. A name of more than 65535 bytes does not come back.
-/

namespace Kronos

open Framing Spec

/-! ## Tables made of entries -/

namespace SymbolTable

variable {es : List (UInt32 × Bytes)} {t : SymbolTable}

theorem mem_of_lookup {name : Bytes} {id : UInt32}
    (h : (es.foldl addEntry t).lookup name = some id) :
    (id, name) ∈ es ∨ t.lookup name = some id := by
  induction es generalizing t with
  | nil => exact .inr h
  | cons p es ih =>
      rcases ih h with hin | hold
      · exact .inl (List.mem_cons_of_mem _ hin)
      · by_cases hname : name = p.2
        · subst hname
          rw [lookup, addEntry, AList.lookup_insert] at hold
          cases hold
          exact .inl List.mem_cons_self
        · rw [lookup, addEntry, AList.lookup_insert_ne hname] at hold
          exact .inr hold

theorem lookup_of_not_mem {name : Bytes} (h : name ∉ es.map Prod.snd) :
    (es.foldl addEntry t).lookup name = t.lookup name := by
  induction es generalizing t with
  | nil => rfl
  | cons p es ih =>
      rw [List.map_cons, List.mem_cons, not_or] at h
      rw [List.foldl_cons, ih h.2, lookup, addEntry, AList.lookup_insert_ne h.1]
      rfl

theorem lookup_of_mem (hnames : (es.map Prod.snd).Nodup) {name : Bytes} {id : UInt32}
    (h : (id, name) ∈ es) : (es.foldl addEntry t).lookup name = some id := by
  induction es generalizing t with
  | nil => cases h
  | cons p es ih =>
      obtain ⟨hp, hes⟩ := List.nodup_cons.mp hnames
      rcases List.mem_cons.mp h with rfl | h
      · rw [List.foldl_cons, lookup_of_not_mem hp, lookup, addEntry, AList.lookup_insert]
      · exact ih hes h

theorem lookup_iff (hnames : (es.map Prod.snd).Nodup) {name : Bytes} {id : UInt32} :
    (es.foldl addEntry {}).lookup name = some id ↔ (id, name) ∈ es := by
  refine ⟨fun h => (mem_of_lookup h).resolve_right fun hno => ?_, lookup_of_mem hnames⟩
  cases hno

theorem lookup_name_of_not_mem {id : UInt32} (h : id ∉ es.map Prod.fst) :
    (es.foldl addEntry t).lookup_name id = t.lookup_name id := by
  induction es generalizing t with
  | nil => rfl
  | cons p es ih =>
      rw [List.map_cons, List.mem_cons, not_or] at h
      rw [List.foldl_cons, ih h.2, lookup_name, addEntry, AList.lookup_insert_ne h.1]
      rfl

theorem lookup_name_of_mem (hids : (es.map Prod.fst).Nodup) {name : Bytes} {id : UInt32}
    (h : (id, name) ∈ es) : (es.foldl addEntry t).lookup_name id = some name := by
  induction es generalizing t with
  | nil => cases h
  | cons p es ih =>
      obtain ⟨hp, hes⟩ := List.nodup_cons.mp hids
      rcases List.mem_cons.mp h with rfl | h
      · rw [List.foldl_cons, lookup_name_of_not_mem hp, lookup_name, addEntry,
          AList.lookup_insert]
      · exact ih hes h

theorem mem_of_lookup_name {name : Bytes} {id : UInt32}
    (h : (es.foldl addEntry t).lookup_name id = some name) :
    (id, name) ∈ es ∨ t.lookup_name id = some name := by
  induction es generalizing t with
  | nil => exact .inr h
  | cons p es ih =>
      rcases ih h with hin | hold
      · exact .inl (List.mem_cons_of_mem _ hin)
      · by_cases hid : id = p.1
        · subst hid
          rw [lookup_name, addEntry, AList.lookup_insert] at hold
          cases hold
          exact .inl List.mem_cons_self
        · rw [lookup_name, addEntry, AList.lookup_insert_ne hid] at hold
          exact .inr hold

theorem lookup_name_iff (hids : (es.map Prod.fst).Nodup) {name : Bytes} {id : UInt32} :
    (es.foldl addEntry {}).lookup_name id = some name ↔ (id, name) ∈ es := by
  refine ⟨fun h => (mem_of_lookup_name h).resolve_right fun hno => ?_, lookup_name_of_mem hids⟩
  cases hno

/-- Under a bound the next id is above all of them and does not wrap. -/
theorem next_id_addEntry {m : Nat} (hm : m < 2 ^ 32) (hes : ∀ p ∈ es, p.1.toNat < m)
    (ht : t.next_id.toNat ≤ m) :
    (es.foldl addEntry t).next_id.toNat ≤ m ∧
      t.next_id.toNat ≤ (es.foldl addEntry t).next_id.toNat ∧
      ∀ p ∈ es, p.1.toNat < (es.foldl addEntry t).next_id.toNat := by
  induction es generalizing t with
  | nil => exact ⟨ht, Nat.le_refl _, fun p hp => by cases hp⟩
  | cons p es ih =>
      have hp := hes p List.mem_cons_self
      have hsucc : (p.1 + 1).toNat = p.1.toNat + 1 := by
        rw [UInt32.toNat_add]
        exact Nat.mod_eq_of_lt (by simp; omega)
      have hstep : (addEntry t p).next_id.toNat ≤ m ∧
          t.next_id.toNat ≤ (addEntry t p).next_id.toNat ∧
          p.1.toNat < (addEntry t p).next_id.toNat := by
        rw [addEntry]
        simp only []
        split
        · next hle => rw [UInt32.le_iff_toNat_le] at hle; omega
        · next hlt => rw [UInt32.le_iff_toNat_le] at hlt; omega
      obtain ⟨h1, h2, h3⟩ := ih (fun q hq => hes q (List.mem_cons_of_mem _ hq)) hstep.1
      refine ⟨h1, hstep.2.1.trans h2, fun q hq => ?_⟩
      rcases List.mem_cons.mp hq with rfl | hq
      · exact hstep.2.2.trans_le h2
      · exact h3 q hq

end SymbolTable

/-- No entry that is found has a longer name. -/
theorem entriesIn_short (file : Bytes) : ∀ p ∈ entriesIn file, p.2.length ≤ 65535 := by
  rw [entriesIn]
  generalize 0 = off
  induction file using Format.scan_induction (f := symbolFormat) generalizing off with
  | stop l h =>
      rw [Format.scan_none h]
      intro p hp
      cases hp
  | step l x n h ih =>
      rw [Format.scan_some h, List.map_cons]
      intro p hp
      rcases List.mem_cons.mp hp with rfl | hp
      · exact symbolFormat_short h
      · exact ih _ p hp

/-! ## Interning a name -/

theorem SymbolTable.intern_known {t : SymbolTable} {name : Bytes} {id : UInt32}
    (h : t.lookup name = some id) : t.intern name = (id, t, []) := by
  rw [SymbolTable.lookup] at h
  rw [SymbolTable.intern, h]

theorem SymbolTable.intern_new {t : SymbolTable} {name : Bytes} (h : t.lookup name = none) :
    t.intern name = (t.next_id,
      { name_to_id := t.name_to_id.insert name t.next_id
        id_to_name := t.id_to_name.insert t.next_id name
        next_id := t.next_id + 1 }, SymbolTable.entry t.next_id name) := by
  rw [SymbolTable.lookup] at h
  rw [SymbolTable.intern, h]

theorem entry_ne_nil (id : UInt32) (name : Bytes) : SymbolTable.entry id name ≠ [] := by
  intro h
  have hlen := entry_length id name
  rw [h, List.length_nil] at hlen
  omega

/-- A new name goes to the front of the map's entries. -/
theorem insert_entries {m : AList fun _ : Bytes => UInt32} {name : Bytes} {id : UInt32}
    (h : m.lookup name = none) : (m.insert name id).entries = ⟨name, id⟩ :: m.entries := by
  rw [AList.entries_insert_of_notMem (AList.lookup_eq_none.mp h)]

/-! ## The invariant -/

namespace Spec.Symbols

theorem reload_table (s : Symbols) : s.reload.table = SymbolTable.load (s.file.getD []) := by
  have hnil : SymbolTable.load [] = {} := by
    rw [SymbolTable.load_eq, entriesIn, Format.scan_none symbolFormat_nil]
    rfl
  rw [reload]
  cases s.file with
  | none => exact hnil.symm
  | some file => rfl

theorem walked_perm (t : SymbolTable) (walk : List (Sigma fun _ : Bytes => UInt32)) :
    (t.walked walk).Perm t.name_to_id.entries := by
  rw [SymbolTable.walked]
  split
  · assumption
  · exact List.Perm.refl _

/-- The file holds an entry for every name of the table, and ids are below the
next one. -/
structure Naming (s : Symbols) : Prop where
  told_known : ∀ p ∈ s.told, s.table.lookup p.1 = some p.2
  known_told : ∀ name id, s.table.lookup name = some id → (name, id) ∈ s.told
  both : ∀ name id, s.table.lookup name = some id ↔ s.table.lookup_name id = some name
  below : ∀ name id, s.table.lookup name = some id → id.toNat < s.table.next_id.toNat
  pos : 1 ≤ s.table.next_id.toNat
  few : s.table.next_id.toNat ≤ s.names.dedup.length + 1
  file : ∃ walk, walk.Perm s.table.name_to_id.entries ∧
    s.file.getD [] = SymbolTable.flush_walk walk

theorem mem_entries {t : SymbolTable} {p : Sigma fun _ : Bytes => UInt32} :
    p ∈ t.name_to_id.entries ↔ t.lookup p.1 = some p.2 := by
  rw [SymbolTable.lookup, AList.mem_lookup_iff.symm, Option.mem_def]

theorem Naming.persistent {s : Symbols} (h : Naming s) : Persistent s := by
  refine ⟨fun p hp => ?_, fun p hp q hq heq => ?_, ?_⟩
  · have hknown := h.told_known p hp
    exact ⟨hknown, by rw [SymbolTable.intern_known hknown], (h.both _ _).mp hknown⟩
  · have hp' := (h.both _ _).mp (h.told_known p hp)
    have hq' := (h.both _ _).mp (h.told_known q hq)
    rw [heq, hq'] at hp'
    exact (Option.some.inj hp').symm
  · have hkeys : s.table.name_to_id.keys.Perm s.names.dedup := by
      refine (List.perm_ext_iff_of_nodup s.table.name_to_id.keys_nodup
        (List.nodup_dedup _)).mpr fun name => ?_
      rw [List.mem_dedup, names, List.mem_map, ← AList.mem_keys, ← AList.lookup_isSome,
        Option.isSome_iff_exists]
      constructor
      · rintro ⟨id, hid⟩
        exact ⟨_, h.known_told name id hid, rfl⟩
      · rintro ⟨p, hp, rfl⟩
        exact ⟨_, h.told_known p hp⟩
    rw [SymbolTable.size, ← hkeys.length_eq, AList.keys, List.keys, List.length_map]

theorem naming_new : Naming {} :=
  ⟨nofun, nofun, fun _ _ => ⟨nofun, nofun⟩, nofun, by decide, by decide, [], List.Perm.refl _, rfl⟩

/-! ## The calls -/

theorem dedup_length_le {a b : List Bytes} (h : ∀ x ∈ a, x ∈ b) :
    a.dedup.length ≤ b.dedup.length :=
  (List.subperm_of_subset (List.nodup_dedup a) fun x hx =>
    List.mem_dedup.mpr (h x (List.mem_dedup.mp hx))).length_le

theorem dedup_length_append {a : List Bytes} {x : Bytes} (h : x ∉ a) :
    (a ++ [x]).dedup.length = a.dedup.length + 1 := by
  rw [← List.length_cons (a := x)]
  refine List.Perm.length_eq ((List.perm_ext_iff_of_nodup (List.nodup_dedup _) ?_).mpr fun y => ?_)
  · exact List.nodup_cons.mpr ⟨fun hx => h (List.mem_dedup.mp hx), List.nodup_dedup a⟩
  · rw [List.mem_dedup, List.mem_append, List.mem_singleton, List.mem_cons, List.mem_dedup, or_comm]

/-- A name that is known is only answered once more. -/
theorem call_known {s : Symbols} {name : Bytes} {id : UInt32} (h : s.table.lookup name = some id) :
    s.call (.intern name) = { s with told := s.told ++ [(name, id)] } := by
  simp only [call, SymbolTable.intern_known h, grow, if_true]

theorem call_new {s : Symbols} {name : Bytes} (h : s.table.lookup name = none) :
    s.call (.intern name) =
      { table := { name_to_id := s.table.name_to_id.insert name s.table.next_id
                   id_to_name := s.table.id_to_name.insert s.table.next_id name
                   next_id := s.table.next_id + 1 }
        file := some (s.file.getD [] ++ SymbolTable.entry s.table.next_id name)
        told := s.told ++ [(name, s.table.next_id)] } := by
  simp only [call, SymbolTable.intern_new h, grow, if_neg (entry_ne_nil _ _)]

/-- The names that are known after a new one. -/
theorem lookup_call_new {s : Symbols} {name : Bytes} (h : s.table.lookup name = none) (n : Bytes)
    (i : UInt32) : (s.call (.intern name)).table.lookup n = some i ↔
      n = name ∧ i = s.table.next_id ∨ s.table.lookup n = some i := by
  rw [call_new h, SymbolTable.lookup]
  by_cases hn : n = name
  · subst hn
    rw [AList.lookup_insert, Option.some.injEq, h]
    simp [eq_comm]
  · rw [AList.lookup_insert_ne hn, ← SymbolTable.lookup]
    simp [hn]

theorem naming_intern {s : Symbols} (h : Naming s) (name : Bytes)
    (hfew : (s.names ++ [name]).dedup.length < 2 ^ 32 - 1) : Naming (s.call (.intern name)) := by
  have hnames : (s.call (.intern name)).names = s.names ++ [name] := by
    rw [names, call, names, List.map_append]
    rfl
  cases hlook : s.table.lookup name with
  | some id =>
      have htold : (s.call (.intern name)).told = s.told ++ [(name, id)] := by
        rw [call_known hlook]
      have htable : (s.call (.intern name)).table = s.table := by
        rw [call_known hlook]
      have hfile : (s.call (.intern name)).file = s.file := by
        rw [call_known hlook]
      refine ⟨fun p hp => ?_, fun n i hi => ?_, ?_, ?_, ?_, ?_, ?_⟩
      · rw [htold] at hp
        rw [htable]
        rcases List.mem_append.mp hp with hp | hp
        · exact h.told_known p hp
        · rw [List.mem_singleton.mp hp]
          exact hlook
      · rw [htable] at hi
        rw [htold]
        exact List.mem_append_left _ (h.known_told n i hi)
      · rw [htable]; exact h.both
      · rw [htable]; exact h.below
      · rw [htable]; exact h.pos
      · rw [htable, hnames]
        have hle := dedup_length_le (b := s.names ++ [name])
          fun x (hx : x ∈ s.names) => List.mem_append_left _ hx
        have := h.few
        omega
      · rw [htable, hfile]; exact h.file
  | none =>
      have hnew : name ∉ s.names := fun hmem => by
        obtain ⟨p, hp, rfl⟩ := List.mem_map.mp hmem
        rw [h.told_known p hp] at hlook
        cases hlook
      have hfew' := h.few
      rw [dedup_length_append hnew] at hfew
      have hnext : (s.table.next_id + 1).toNat = s.table.next_id.toNat + 1 := by
        rw [UInt32.toNat_add]
        exact Nat.mod_eq_of_lt (by simp; omega)
      have hfresh : ∀ n, s.table.lookup n ≠ some s.table.next_id := fun n hn =>
        Nat.lt_irrefl _ (h.below n _ hn)
      have hcall := call_new hlook
      have hlookup := lookup_call_new hlook
      refine ⟨fun p hp => ?_, fun n i hi => ?_, fun n i => ?_, fun n i hi => ?_, ?_, ?_, ?_⟩
      · rw [hlookup]
        rw [hcall] at hp
        rcases List.mem_append.mp hp with hp | hp
        · exact .inr (h.told_known p hp)
        · rw [List.mem_singleton.mp hp]
          exact .inl ⟨rfl, rfl⟩
      · rw [hcall]
        rcases (hlookup n i).mp hi with ⟨rfl, rfl⟩ | hold
        · exact List.mem_append_right _ (List.mem_singleton.mpr rfl)
        · exact List.mem_append_left _ (h.known_told n i hold)
      · rw [hlookup, hcall, SymbolTable.lookup_name, h.both]
        by_cases hi : i = s.table.next_id
        · subst hi
          have hnone : ∀ n, s.table.lookup_name s.table.next_id ≠ some n := fun n hn =>
            hfresh n ((h.both _ _).mpr hn)
          rw [AList.lookup_insert, Option.some.injEq]
          simp [hnone n, eq_comm]
        · rw [AList.lookup_insert_ne hi, ← SymbolTable.lookup_name]
          simp [hi]
      · rw [hcall]
        simp only []
        rw [hnext]
        rcases (hlookup n i).mp hi with ⟨rfl, rfl⟩ | hold
        · exact Nat.lt_succ_self _
        · exact Nat.lt_succ_of_lt (h.below n i hold)
      · rw [hcall]
        simp only []
        omega
      · rw [hnames, dedup_length_append hnew, hcall]
        simp only []
        omega
      · obtain ⟨walk, hperm, hfile⟩ := h.file
        refine ⟨walk ++ [⟨name, s.table.next_id⟩], ?_, ?_⟩
        · rw [hcall]
          simp only []
          rw [insert_entries hlook]
          exact List.perm_append_comm.trans (hperm.cons _)
        · rw [hcall, Option.getD_some, hfile, SymbolTable.flush_walk, SymbolTable.flush_walk,
            List.flatMap_append, List.flatMap_singleton]

/-- What a file of whole entries is loaded as. -/
theorem lookup_load {walk : List (Sigma fun _ : Bytes => UInt32)}
    (hnames : (walk.map Sigma.fst).Nodup) (hshort : ∀ p ∈ walk, p.1.length ≤ 65535) {name : Bytes}
    {id : UInt32} :
    (SymbolTable.load (SymbolTable.flush_walk walk)).lookup name = some id ↔
      (⟨name, id⟩ : Sigma fun _ : Bytes => UInt32) ∈ walk := by
  obtain ⟨hentries, -⟩ := entriesIn_walk hshort symbolFormat_nil
  rw [List.append_nil] at hentries
  rw [SymbolTable.load_eq, hentries, SymbolTable.lookup_iff]
  · rw [walkEntries, List.mem_map]
    constructor
    · rintro ⟨p, hp, heq⟩
      cases heq
      exact hp
    · exact fun hp => ⟨_, hp, rfl⟩
  · rw [walkEntries, List.map_map]
    exact hnames

theorem naming_flush {s : Symbols} (h : Naming s)
    (walk : List (Sigma fun _ : Bytes => UInt32)) : Naming (s.call (.flush walk)) :=
  ⟨h.told_known, h.known_told, h.both, h.below, h.pos, h.few, _, walked_perm _ _, rfl⟩

theorem entries_nodup (t : SymbolTable) : t.name_to_id.entries.Nodup := t.name_to_id.nodupKeys.nodup

theorem Naming.ids_nodup {s : Symbols} (h : Naming s) :
    (s.table.name_to_id.entries.map Sigma.snd).Nodup := by
  rw [List.Nodup, List.pairwise_map]
  refine (entries_nodup s.table).imp_of_mem fun {p q} hp hq hne heq => hne ?_
  have hp' := (h.both _ _).mp (mem_entries.mp hp)
  rw [heq, (h.both _ _).mp (mem_entries.mp hq)] at hp'
  exact Sigma.ext (Option.some.inj hp').symm (heq_of_eq heq)

theorem naming_reload {s : Symbols} (h : Naming s) (hshort : ∀ name ∈ s.names, name.length ≤ 65535) :
    Naming (s.call .reload) := by
  obtain ⟨walk, hperm, hfile⟩ := h.file
  have hmem : ∀ name id, (⟨name, id⟩ : Sigma fun _ : Bytes => UInt32) ∈ walk ↔
      s.table.lookup name = some id := fun name id => hperm.mem_iff.trans mem_entries
  have hfits : ∀ p ∈ walk, p.1.length ≤ 65535 := fun p hp =>
    hshort _ (List.mem_map_of_mem (h.known_told p.1 p.2 ((hmem _ _).mp hp)))
  have hnames : (walk.map Sigma.fst).Nodup :=
    (hperm.map Sigma.fst).nodup_iff.mpr s.table.name_to_id.keys_nodup
  have htable : (s.call .reload).table = SymbolTable.load (SymbolTable.flush_walk walk) := by
    rw [call, reload_table, hfile]
  have hlookup : ∀ name id, (s.call .reload).table.lookup name = some id ↔
      s.table.lookup name = some id := fun name id => by
    rw [htable, lookup_load hnames hfits, hmem]
  obtain ⟨hentries, -⟩ := entriesIn_walk hfits symbolFormat_nil
  rw [List.append_nil] at hentries
  have hbelow : ∀ p ∈ walkEntries walk, p.1.toNat < s.table.next_id.toNat := fun p hp => by
    obtain ⟨q, hq, rfl⟩ := List.mem_map.mp hp
    exact h.below q.1 q.2 ((hmem _ _).mp hq)
  obtain ⟨hle, hone, hnext⟩ :=
    SymbolTable.next_id_addEntry (t := {}) s.table.next_id.toNat_lt hbelow h.pos
  rw [← hentries, ← SymbolTable.load_eq, ← htable] at hle hone hnext
  have hids : ((walkEntries walk).map Prod.fst).Nodup := by
    rw [walkEntries, List.map_map]
    exact (hperm.map Sigma.snd).nodup_iff.mpr h.ids_nodup
  refine ⟨fun p hp => (hlookup _ _).mpr (h.told_known p hp), fun n i hi => ?_, fun n i => ?_,
    fun n i hi => ?_, hone, hle.trans h.few, walk, ?_, hfile⟩
  · exact h.known_told n i ((hlookup n i).mp hi)
  · rw [hlookup, htable, SymbolTable.load_eq, hentries, SymbolTable.lookup_name_iff hids,
      walkEntries, List.mem_map, ← hmem]
    constructor
    · exact fun hp => ⟨_, hp, rfl⟩
    · rintro ⟨p, hp, heq⟩
      cases heq
      exact hp
  · refine hnext (i, n) ?_
    rw [hentries]
    exact List.mem_map.mpr ⟨_, (hmem n i).mpr ((hlookup n i).mp hi), rfl⟩
  · refine (List.perm_ext_iff_of_nodup (hperm.nodup_iff.mpr (entries_nodup _))
      (entries_nodup _)).mpr fun p => ?_
    rw [mem_entries, hlookup]
    exact hmem p.1 p.2

/-! ## Runs -/

/-- No name is too long for its entry when the file is loaded. -/
def Fits (s : Symbols) : SymbolCall → Prop
  | .reload => ∀ name ∈ s.names, name.length ≤ 65535
  | _ => True

instance (s : Symbols) (c : SymbolCall) : Decidable (Fits s c) :=
  match c with
  | .intern _ => inferInstanceAs (Decidable True)
  | .flush _ => inferInstanceAs (Decidable True)
  | .reload => inferInstanceAs (Decidable (∀ name ∈ s.names, name.length ≤ 65535))

/-- The names the calls hand to `intern`. -/
def callNames (calls : List SymbolCall) : List Bytes :=
  calls.filterMap fun c => (SymbolEvent.call c).name?

theorem naming_call {s : Symbols} (h : Naming s) {c : SymbolCall}
    (hfew : (s.names ++ callNames [c]).dedup.length < 2 ^ 32 - 1) (hfits : Fits s c) :
    Naming (s.call c) := by
  cases c with
  | intern name => exact naming_intern h name hfew
  | flush walk => exact naming_flush h walk
  | reload => exact naming_reload h hfits

/-- A name that is too long is not found again. -/
theorem fits_of_persistent {s : Symbols} {c : SymbolCall} (hp : Persistent (s.call c)) :
    Fits s c := by
  cases c with
  | intern name => trivial
  | flush walk => trivial
  | reload =>
      intro name hname
      obtain ⟨p, htold, rfl⟩ := List.mem_map.mp hname
      have hknown := (hp.ids p htold).1
      rw [call, reload_table, SymbolTable.load_eq] at hknown
      rcases SymbolTable.mem_of_lookup hknown with hin | hno
      · exact entriesIn_short _ _ hin
      · cases hno

theorem call_names (s : Symbols) (c : SymbolCall) : (s.call c).names = s.names ++ callNames [c] := by
  cases c with
  | intern name =>
      rw [names, call, names, List.map_append]
      rfl
  | flush walk => exact (List.append_nil _).symm
  | reload => exact (List.append_nil _).symm

theorem along_iff_fits {s : Symbols} (h : Naming s) {calls : List SymbolCall}
    (hfew : (s.names ++ callNames calls).dedup.length < 2 ^ 32 - 1) :
    Run.Along call (fun s c => Persistent (s.call c)) s calls ↔ Run.Along call Fits s calls := by
  induction calls generalizing s with
  | nil => exact Iff.rfl
  | cons c calls ih =>
      have hsplit : callNames (c :: calls) = callNames [c] ++ callNames calls :=
        List.filterMap_append (l := [c])
      rw [hsplit, ← List.append_assoc] at hfew
      have hfirst := (dedup_length_le (b := s.names ++ callNames [c] ++ callNames calls)
        fun x hx => List.mem_append_left _ hx).trans_lt hfew
      rw [Run.Along, Run.Along]
      constructor
      · rintro ⟨hp, hrest⟩
        have hfits := fits_of_persistent hp
        refine ⟨hfits, (ih (naming_call h hfirst hfits) ?_).mp hrest⟩
        rw [call_names]
        exact hfew
      · rintro ⟨hfits, hrest⟩
        have hnaming := naming_call h hfirst hfits
        refine ⟨hnaming.persistent, (ih hnaming ?_).mpr hrest⟩
        rw [call_names]
        exact hfew

end Spec.Symbols

/-- From no file on, with fewer than 2^32 - 1 distinct names: names and ids
persist through every call exactly if no name of more than 65535 bytes has been
interned when a table is loaded. -/
theorem symbols_persist_iff (calls : List SymbolCall)
    (hfew : (Symbols.callNames calls).dedup.length < 2 ^ 32 - 1) :
    Run.Along Symbols.call (fun s c => (s.call c).Persistent) {} calls ↔
      Run.Along Symbols.call Symbols.Fits {} calls :=
  Symbols.along_iff_fits Symbols.naming_new hfew

/-- Two names, one of them after a load. -/
theorem symbols_persist_two : Run.Along Symbols.call (fun s c => (s.call c).Persistent) {}
    [.intern [65], .reload, .intern [66], .flush [], .reload] :=
  (symbols_persist_iff [.intern [65], .reload, .intern [66], .flush [], .reload] (by decide)).mpr
    ⟨trivial, by decide, trivial, trivial, by decide, trivial⟩

/-! ## A name of 65536 bytes -/

/-- Its length is written as zero. -/
def longName : Bytes := List.replicate 65536 65

theorem long_name_lost : ¬ Run.Along Symbols.call (fun s c => (s.call c).Persistent) {}
    [.intern longName, .reload] := by
  intro h
  have hfits := Symbols.fits_of_persistent h.2.1
  have hlen := hfits longName (List.mem_singleton.mpr rfl)
  rw [longName, List.length_replicate] at hlen
  omega

end Kronos
