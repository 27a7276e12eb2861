import Kronos.Proofs.SymbolCrash
import Kronos.Spec.FailedIntern

/-!
# What an `intern` that throws leaves behind

The maps and the counter are set before the entry is appended, so a call that
throws has given the name its id all the same: the next call for it answers
that id without a word to the file. A table loaded later does not know the
name and gives the id to another one.

As long as no call throws, every name that was answered has its entry. A name
longer than its entry can say and an id given twice break that as well,
whether or not anything throws.
-/

namespace Kronos.Spec.Symbols

open Framing

/-! ## One call -/

theorem intern_unless_known {t : SymbolTable} {name : Bytes} {id : UInt32}
    (h : t.lookup name = some id) (open_ok : Bool) :
    t.intern_unless name open_ok = (some id, t, []) := by
  rw [SymbolTable.lookup] at h
  rw [SymbolTable.intern_unless, h]

/-- With the file open it is `intern`. -/
theorem intern_unless_ok (t : SymbolTable) (name : Bytes) :
    t.intern_unless name true = (some (t.intern name).1, (t.intern name).2) := by
  rw [SymbolTable.intern_unless, SymbolTable.intern]
  cases t.name_to_id.lookup name with
  | some id => rfl
  | none => rfl

theorem write_intern_ok (s : Symbols) (name : Bytes) :
    s.write (.intern name true) = s.call (.intern name) := by
  rw [write, intern_unless_ok, call]
  rfl

theorem write_intern_known {s : Symbols} {name : Bytes} {id : UInt32}
    (h : s.table.lookup name = some id) (open_ok : Bool) :
    s.write (.intern name open_ok) = s.call (.intern name) := by
  rw [write, intern_unless_known h, call, SymbolTable.intern_known h]
  rfl

/-- A call that throws has given the name an id. -/
theorem throws_changes {s : Symbols} {name : Bytes} (h : s.table.lookup name = none) :
    s.Throws (.intern name false) ∧ (s.write (.intern name false)).table ≠ s.table := by
  have hthrow : s.table.intern_unless name false = (none,
      { name_to_id := s.table.name_to_id.insert name s.table.next_id
        id_to_name := s.table.id_to_name.insert s.table.next_id name
        next_id := s.table.next_id + 1 }, []) := by
    rw [SymbolTable.lookup] at h
    rw [SymbolTable.intern_unless, h]
    rfl
  constructor
  · rw [Throws, hthrow]
  · intro heq
    rw [write, hthrow] at heq
    have hset : s.table.name_to_id.insert name s.table.next_id = s.table.name_to_id :=
      congrArg SymbolTable.name_to_id heq
    have hlook := s.table.name_to_id.lookup_insert (a := name) (b := s.table.next_id)
    rw [hset, ← SymbolTable.lookup, h] at hlook
    cases hlook

/-! ## The invariant -/

/-- The file ends with a whole entry, and every name of the table was answered. -/
structure Recorded (s : Symbols) : Prop where
  settled : Settled s
  whole : Whole (s.file.getD [])
  answered : ∀ name id, s.table.lookup name = some id → (name, id) ∈ s.told

theorem recorded_new : Recorded {} :=
  ⟨settled_new, Format.clean_none symbolFormat_nil, fun name id h => by cases h⟩

theorem Recorded.inFile {s : Symbols} (h : Recorded s) : InFile s := by
  have hload : s.reload.table = (entriesIn (s.file.getD [])).foldl SymbolTable.addEntry {} := by
    rw [reload_table, SymbolTable.load_eq]
  refine ⟨fun p hp => ?_, fun p hp name hname => ?_⟩
  · rw [hload]
    exact SymbolTable.lookup_of_mem h.settled.names (h.settled.told p hp)
  · have hin : (p.2, name) ∈ entriesIn (s.file.getD []) := by
      rw [hload] at hname
      obtain hname | hname := hname
      · exact (SymbolTable.lookup_iff h.settled.names).mp hname
      · exact (SymbolTable.mem_of_lookup_name hname).resolve_right fun hno => by cases hno
    exact h.settled.owner _ hin _ (h.settled.told p hp) rfl

theorem recorded_intern {s : Symbols} (h : Recorded s) {name : Bytes}
    (hok : s.table.lookup name = none →
      name.length ≤ 65535 ∧ ∀ n, s.table.lookup n ≠ some s.table.next_id) :
    Recorded (s.call (.intern name)) := by
  cases hlook : s.table.lookup name with
  | some id =>
      rw [call_known hlook]
      refine ⟨⟨fun p hp => ?_, h.settled.known, h.settled.names, h.settled.owner⟩, h.whole,
        fun n i hn => List.mem_append_left _ (h.answered n i hn)⟩
      obtain hp | hp := List.mem_append.mp hp
      · exact h.settled.told p hp
      · rw [List.mem_singleton.mp hp]
        exact (h.settled.known _ _).mp hlook
  | none =>
      obtain ⟨hshort, hfresh⟩ := hok hlook
      refine ⟨settled_intern h.settled hshort fun _ => ⟨h.whole, hfresh⟩, ?_, fun n i hn => ?_⟩
      · rw [call_new hlook, Whole, Option.getD_some, Format.clean_append _ h.whole,
          ← List.append_nil (SymbolTable.entry s.table.next_id name),
          Format.clean_record (symbolFormat_entry s.table.next_id hshort),
          Format.clean_none symbolFormat_nil, List.length_append, List.length_append]
        rfl
      · rw [call_new hlook]
        obtain ⟨rfl, rfl⟩ | hold := (lookup_call_new hlook n i).mp hn
        · exact List.mem_append_right _ (List.mem_singleton.mpr rfl)
        · exact List.mem_append_left _ (h.answered n i hold)

theorem recorded_flush {s : Symbols} (h : Recorded s)
    (walk : List (Sigma fun _ : Bytes => UInt32)) : Recorded (s.call (.flush walk)) := by
  refine ⟨settled_flush h.settled walk, ?_, h.answered⟩
  have hshort : ∀ p ∈ s.table.walked walk, p.1.length ≤ 65535 := by
    intro p hp
    refine entriesIn_short _ _ ((h.settled.known p.1 p.2).mp ?_)
    exact mem_entries.mp ((walked_perm _ _).subset hp)
  have hclean := (entriesIn_walk hshort symbolFormat_nil).2
  rw [List.append_nil] at hclean
  exact hclean

theorem recorded_reload {s : Symbols} (h : Recorded s) : Recorded (s.call .reload) := by
  refine ⟨settled_reload h.settled.told h.settled.names h.settled.owner, h.whole,
    fun name id hload => ?_⟩
  have hlook : s.reload.table.lookup name = some id := hload
  rw [reload_table, SymbolTable.load_eq, SymbolTable.lookup_iff h.settled.names] at hlook
  exact h.answered name id ((h.settled.known name id).mpr hlook)

theorem recorded_write {s : Symbols} (h : Recorded s) {c : FileCall} (hc : Writable s c) :
    Recorded (s.write c) := by
  cases c with
  | intern name open_ok =>
      cases hlook : s.table.lookup name with
      | some id =>
          rw [write_intern_known hlook]
          refine recorded_intern h fun hno => ?_
          rw [hlook] at hno
          cases hno
      | none =>
          obtain ⟨rfl, hshort, hfresh⟩ := hc hlook
          rw [write_intern_ok]
          exact recorded_intern h fun _ => ⟨hshort, hfresh⟩
  | flush walk => exact recorded_flush h walk
  | reload => exact recorded_reload h

/-! ## When a call keeps its promise -/

theorem not_throws {s : Symbols} {c : FileCall} (hc : Writable s c) : ¬ s.Throws c := by
  cases c with
  | intern name open_ok =>
      rw [Throws]
      cases hlook : s.table.lookup name with
      | some id =>
          rw [intern_unless_known hlook]
          simp
      | none =>
          obtain ⟨rfl, -⟩ := hc hlook
          rw [intern_unless_ok]
          simp
  | flush walk => exact id
  | reload => exact id

/-- A call that cannot write what it gives out breaks the promise. -/
theorem writable_of_atomic {s : Symbols} (h : Recorded s) {c : FileCall} (hc : s.Atomic c) :
    Writable s c := by
  cases c with
  | flush walk => trivial
  | reload => trivial
  | intern name open_ok =>
      intro hlook
      cases open_ok with
      | false => exact absurd (hc.1 (throws_changes hlook).1) (throws_changes hlook).2
      | true =>
          have hfile : InFile (s.call (.intern name)) := by
            rw [← write_intern_ok]
            exact hc.2
          have htold : (s.call (.intern name)).told = s.told ++ [(name, s.table.next_id)] := by
            rw [call_new hlook]
          have hnew : (name, s.table.next_id) ∈ (s.call (.intern name)).told := by
            rw [htold]
            exact List.mem_append_right _ (List.mem_singleton.mpr rfl)
          refine ⟨rfl, ?_, fun n hn => ?_⟩
          · have hread := hfile.ids _ hnew
            rw [reload_table, SymbolTable.load_eq] at hread
            obtain hin | hno := SymbolTable.mem_of_lookup hread
            · exact entriesIn_short _ _ hin
            · cases hno
          · -- the id is told for two names
            have hold : (n, s.table.next_id) ∈ (s.call (.intern name)).told := by
              rw [htold]
              exact List.mem_append_left _ (h.answered n _ hn)
            have hsame : n = name := hfile.owner _ hnew n (.inl (hfile.ids _ hold))
            rw [hsame, hlook] at hn
            cases hn

theorem atomic_iff {s : Symbols} (h : Recorded s) {c : FileCall} :
    s.Atomic c ↔ Writable s c := by
  refine ⟨writable_of_atomic h, fun hc => ⟨fun ht => absurd ht (not_throws hc), ?_⟩⟩
  exact (recorded_write h hc).inFile

/-- A call that throws changes nothing, and the file has what was answered, along
a run from no file on exactly if no call throws and no new name is too long or
gets an id that is taken. -/
theorem failed_intern_iff (calls : List FileCall) :
    Run.Along write Atomic {} calls ↔ Run.Along write Writable {} calls := by
  refine Run.along_iff (R := fun s t => t = s ∧ Recorded s) ?_ ?_ ⟨rfl, recorded_new⟩
  · rintro s t c ⟨rfl, h⟩
    exact atomic_iff h
  · rintro s t c ⟨rfl, h⟩ hc
    exact ⟨rfl, recorded_write h ((atomic_iff h).mp hc)⟩

/-- The id of a name whose `intern` threw is answered for it and, after a load, for
another name. -/
theorem failed_intern_reused :
    (({} : Symbols).write (.intern [65] false)).table.next_id = 2 ∧
    ([.intern [65] false, .intern [65] true, .reload, .intern [66] true].foldl write {}).told =
      [([65], 1), ([66], 1)] ∧
    ¬ Run.Along write Atomic {}
      [.intern [65] false, .intern [65] true, .reload, .intern [66] true] := by
  refine ⟨rfl, rfl, fun h => ?_⟩
  have hno : ({} : Symbols).table.lookup [65] = none := rfl
  exact (throws_changes hno).2 (h.1.1 (throws_changes hno).1)

end Kronos.Spec.Symbols
