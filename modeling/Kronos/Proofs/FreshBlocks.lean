import Kronos.Proofs.BlockCache
import Kronos.Proofs.CutShort
import Kronos.Proofs.RoundTrip
import Kronos.Proofs.Untrusted
import Kronos.Spec.FreshBlocks

/-!
# When the block cache serves what the files hold

An entry of the cache is what some reader read at an entry of its index. As long
as the file at that path is the one that was read, a hit is what a read of the file
gives. Reading keeps that, and so does removing a file, as nothing can be opened
there; only a file written to the path of a cached block breaks it.
-/

namespace Kronos

open Spec

/-! ## One read -/

theorem Spec.Opens.file_eq {files : StoredFiles} {r : SSTableReader} (h : Opens files r) :
    files r.path = some r.file := by
  obtain ⟨file, hfile, hopen⟩ := h
  obtain ⟨_, _, _, _, -, -, -, -, -, -, -, hr⟩ := Checked.open_ok.mp hopen
  have heq : r.file = file := congrArg SSTableReader.file hr
  rw [heq, hfile]

theorem Spec.Opens.unique {files : StoredFiles} {r r' : SSTableReader} (h : Opens files r)
    (h' : Opens files r') (hpath : r.path = r'.path) : r = r' := by
  obtain ⟨file, hfile, hopen⟩ := h
  obtain ⟨file', hfile', hopen'⟩ := h'
  rw [hpath, hfile'] at hfile
  rw [hpath, ← Option.some.inj hfile, hopen'] at hopen
  exact (Except.ok.inj hopen).symm

/-- Every entry is what a reader of its file reads for an entry of the index. -/
structure FreshCache (files : StoredFiles) (c : BlockCache) : Prop where
  coherent : c.Coherent
  stored : ∀ e ∈ c.lru, ∀ r, Opens files r → r.path = e.key.path →
    ∃ entry ∈ r.index.entries, entry.block_offset.toNat = e.key.offset ∧
      pread r.file entry.block_size.toNat entry.block_offset = some e.data

section
variable {files : StoredFiles} {c : BlockCache} {r : SSTableReader} {entry : IndexEntry}

theorem fresh_new (files : StoredFiles) (max_bytes : Nat) : FreshCache files { max_bytes } :=
  ⟨BlockCache.coherent_new max_bytes, fun e he => by cases he⟩

theorem cached_mem (h : c.Coherent) {key : BlockKey} {data : Bytes}
    (hdata : cached key c = some data) : ∃ e ∈ c.lru, e.key = key ∧ e.data = data := by
  obtain ⟨hco, hmem, -, hnode⟩ := BlockCache.get_spec h key
  rw [cached] at hdata
  obtain ⟨node, hget, hdata⟩ := Option.map_eq_some_iff.mp hdata
  obtain ⟨e, he, hkey, rfl⟩ := hnode node hget
  rw [BlockCache.node?_of_mem hco.nodes ((hmem e).mpr he)] at hdata
  exact ⟨e, he, hkey, hdata⟩

theorem read_block_at_cached (off : UInt64) (size : UInt32) (c : BlockCache)
    (r : SSTableReader) :
    r.read_block_at off size (some c) =
      match cached ⟨r.path, off.toNat⟩ c with
      | some data => (Block.decode data, some (c.get ⟨r.path, off.toNat⟩).2)
      | none =>
          match pread r.file size.toNat off with
          | none => (.error .block_read_failed, some (c.get ⟨r.path, off.toNat⟩).2)
          | some buf => (Block.decode buf,
              some ((c.get ⟨r.path, off.toNat⟩).2.put ⟨r.path, off.toNat⟩ buf)) := by
  rw [SSTableReader.read_block_at, cached]
  dsimp only
  obtain ⟨hit, c'⟩ := c.get ⟨r.path, off.toNat⟩
  cases hit with
  | some node => rfl
  | none => rfl

/-- A hit is what the file holds. -/
theorem FreshCache.hit (h : FreshCache files c) (hr : Opens files r) (hone : OneSize r.index)
    (hentry : entry ∈ r.index.entries) {data : Bytes}
    (hdata : cached ⟨r.path, entry.block_offset.toNat⟩ c = some data) :
    pread r.file entry.block_size.toNat entry.block_offset = some data := by
  obtain ⟨e, he, hkey, rfl⟩ := cached_mem h.coherent hdata
  obtain ⟨other, hother, hoffset, hread⟩ := h.stored e he r hr (by rw [hkey])
  rw [hkey] at hoffset
  have hsame : other.block_offset = entry.block_offset := UInt64.toNat_inj.mp hoffset
  rw [← hsame, ← hone other hother entry hentry hsame]
  exact hread

theorem FreshCache.get (h : FreshCache files c) (key : BlockKey) :
    FreshCache files (c.get key).2 := by
  obtain ⟨hco, hmem, -, -⟩ := BlockCache.get_spec h.coherent key
  exact ⟨hco, fun e he => h.stored e ((hmem e).mp he)⟩

theorem FreshCache.put (h : FreshCache files c) (hr : Opens files r)
    (hentry : entry ∈ r.index.entries) {buf : Bytes}
    (hread : pread r.file entry.block_size.toNat entry.block_offset = some buf) :
    FreshCache files (c.put ⟨r.path, entry.block_offset.toNat⟩ buf) := by
  obtain ⟨hco, hlru, -⟩ := BlockCache.put_spec h.coherent ⟨r.path, entry.block_offset.toNat⟩ buf
  refine ⟨hco, fun e he r' hr' hpath => ?_⟩
  rw [hlru] at he
  obtain rfl | he := List.mem_cons.mp ((Fitting.fit_sublist _ _).subset he)
  · rw [hr'.unique hr hpath]
    exact ⟨entry, hentry, rfl, hread⟩
  · exact h.stored e (List.mem_filter.mp he).1 r' hr' hpath

theorem read_block_at_uncached (off : UInt64) (size : UInt32) (r : SSTableReader) :
    r.read_block_at off size none =
      (match pread r.file size.toNat off with
        | none => .error .block_read_failed
        | some buf => Block.decode buf, none) := by
  rw [SSTableReader.read_block_at]
  cases pread r.file size.toNat off with
  | none => rfl
  | some buf => rfl

/-- A block comes out the same, and the cache stays fresh. -/
theorem FreshCache.read (h : FreshCache files c) (hr : Opens files r) (hone : OneSize r.index)
    (hentry : entry ∈ r.index.entries) :
    ∃ block c', r.read_block_at entry.block_offset entry.block_size (some c) = (block, some c') ∧
      r.read_block_at entry.block_offset entry.block_size none = (block, none) ∧
      FreshCache files c' := by
  rw [read_block_at_cached, read_block_at_uncached]
  cases hdata : cached ⟨r.path, entry.block_offset.toNat⟩ c with
  | some data =>
      rw [h.hit hr hone hentry hdata]
      exact ⟨_, _, rfl, rfl, h.get _⟩
  | none =>
      cases hread : pread r.file entry.block_size.toNat entry.block_offset with
      | none => exact ⟨_, _, rfl, rfl, h.get _⟩
      | some buf => exact ⟨_, _, rfl, rfl, (h.get _).put hr hentry hread⟩

/-! ## Many reads -/

/-- Every file that opens has an index with one size for an offset. -/
def OneSizes (files : StoredFiles) : Prop := ∀ r, Opens files r → OneSize r.index

theorem FreshCache.reads (h : FreshCache files c) (hones : OneSizes files) {c' : BlockCache}
    (hreads : Reads files c c') : FreshCache files c' := by
  induction hreads with
  | start => exact h
  | read _ hr hentry hread ih =>
      obtain ⟨block, c', hc', -, hfresh⟩ := ih.read hr (hones _ hr) hentry
      rw [hc'] at hread
      rw [← Option.some.inj hread]
      exact hfresh

/-- The outcome of a scan by way of a cache is that of one without, and the cache is
one that reads come to. -/
def SameScan {σ : Type} (files : StoredFiles) (c : BlockCache) (x y : Scanned σ) : Prop :=
  ∃ state threw c', x = ⟨state, some c', threw⟩ ∧ y = ⟨state, none, threw⟩ ∧ Reads files c c'

variable {σ : Type} (cb : Callback σ) (start end_ : Key)

theorem FreshCache.scan_blocks (hr : Opens files r) (hones : OneSizes files) (idxs : List Nat)
    (s : σ) (h : FreshCache files c) {c₀ : BlockCache} (hreads : Reads files c₀ c) :
    SameScan files c₀ (r.scan_blocks start end_ cb idxs s (some c))
      (r.scan_blocks start end_ cb idxs s none) := by
  induction idxs generalizing s c with
  | nil => exact ⟨s, none, c, rfl, rfl, hreads⟩
  | cons bi rest ih =>
      rw [SSTableReader.scan_blocks, SSTableReader.scan_blocks]
      cases hget : r.index.entries[bi]? with
      | none => exact ⟨s, none, c, rfl, rfl, hreads⟩
      | some entry =>
          have hentry := List.mem_of_getElem? hget
          obtain ⟨block, c', hc', hnone, hfresh⟩ := h.read hr (hones r hr) hentry
          have hreads' := hreads.read hr hentry (congrArg Prod.snd hc')
          simp only [hc', hnone]
          cases block with
          | error err => exact ⟨s, some err, c', rfl, rfl, hreads'⟩
          | ok blk =>
              dsimp only
              obtain ⟨s', more⟩ := block_scan start end_ cb s blk.events
              cases more with
              | false => exact ⟨s', none, c', rfl, rfl, hreads'⟩
              | true => exact ih s' hfresh hreads'

theorem FreshCache.scan (h : FreshCache files c) (hr : Opens files r) (hones : OneSizes files)
    (s : σ) :
    SameScan files c (r.scan start end_ cb s (some c)) (r.scan start end_ cb s none) := by
  rw [SSTableReader.scan, SSTableReader.scan]
  split
  · exact h.scan_blocks cb start end_ hr hones _ s .start
  · exact ⟨s, none, c, rfl, rfl, .start⟩

end

/-! ## A query -/

theorem Spec.Reads.trans {files : StoredFiles} {a b c : BlockCache} (h : Reads files a b)
    (h' : Reads files b c) : Reads files a c := by
  induction h' with
  | start => exact h
  | read _ hr hentry hread ih => exact ih.read hr hentry hread

theorem opens_of {files : StoredFiles} {path : SSTablePath} {file : Bytes} {r : SSTableReader}
    (hfile : files path = some file) (hopen : SSTableReader.open_ path file = .ok r) :
    Opens files r := by
  obtain ⟨_, _, _, _, -, -, -, -, -, -, -, hr⟩ := Checked.open_ok.mp hopen
  have hpath : r.path = path := congrArg SSTableReader.path hr
  exact ⟨file, by rw [hpath, hfile], by rw [hpath]; exact hopen⟩

section
variable {files : StoredFiles} {c : BlockCache}

/-- The same with a cache as without, and the cache is one that reads come to. -/
def SameQuery {α : Type} (files : StoredFiles) (c : BlockCache)
    (x y : α × Option BlockCache) : Prop :=
  ∃ a c', x = (a, some c') ∧ y = (a, none) ∧ Reads files c c'

/-- One round of the loop over the files. -/
theorem FreshCache.file (h : FreshCache files c) (hones : OneSizes files) (req : QueryRequest)
    (sym_id : UInt32) (collecting : Collecting) (info : SSTableInfo) :
    SameQuery files c (scan_stored_file req sym_id files (collecting, some c) info)
      (scan_stored_file req sym_id files (collecting, none) info) := by
  rw [scan_stored_file, scan_stored_file]
  split
  · exact ⟨_, c, rfl, rfl, .start⟩
  · dsimp only
    split
    · cases hfile : files info.path with
      | none => exact ⟨_, c, rfl, rfl, .start⟩
      | some file =>
          dsimp only
          cases hopen : SSTableReader.open_ info.path file with
          | error err => exact ⟨_, c, rfl, rfl, .start⟩
          | ok reader =>
              obtain ⟨state, threw, c', hx, hy, hreads⟩ := h.scan req.filter_and_collect
                (req.start_key sym_id) (req.end_key sym_id) (opens_of hfile hopen) hones
                { collecting with result.stats.files_considered :=
                    collecting.result.stats.files_considered + 1 }
              simp only [hx, hy]
              cases threw with
              | none => exact ⟨_, c', rfl, rfl, hreads⟩
              | some err => exact ⟨_, c', rfl, rfl, hreads⟩
    · exact ⟨_, c, rfl, rfl, .start⟩

theorem FreshCache.infos (h : FreshCache files c) (hones : OneSizes files) (req : QueryRequest)
    (sym_id : UInt32) (infos : List SSTableInfo) (collecting : Collecting) {c₀ : BlockCache}
    (hreads : Reads files c₀ c) :
    SameQuery files c₀ (infos.foldl (scan_stored_file req sym_id files) (collecting, some c))
      (infos.foldl (scan_stored_file req sym_id files) (collecting, none)) := by
  induction infos generalizing collecting c with
  | nil => exact ⟨collecting, c, rfl, rfl, hreads⟩
  | cons info infos ih =>
      obtain ⟨a, c', hx, hy, hreads'⟩ := h.file hones req sym_id collecting info
      rw [List.foldl_cons, List.foldl_cons, hx, hy]
      exact ih (h.reads hones hreads') a (hreads.trans hreads')

theorem FreshCache.query (h : FreshCache files c) (hones : OneSizes files) (req : QueryRequest)
    (db : DB) :
    SameQuery files c (db.query_stored files (some c) req) (db.query_stored files none req) := by
  rw [DB.query_stored, DB.query_stored]
  split
  · exact ⟨_, c, rfl, rfl, .start⟩
  · cases db.symbols.lookup req.symbol with
    | none => exact ⟨_, c, rfl, rfl, .start⟩
    | some sym_id =>
        obtain ⟨a, c', hx, hy, hreads⟩ := h.infos hones req sym_id (files_to_scan db.levels)
          (scan_memtables req sym_id db.active_mem db.imm_mems {}) .start
        dsimp only
        rw [hx, hy]
        exact ⟨_, c', rfl, rfl, hreads⟩

theorem FreshCache.readsFiles (h : FreshCache files c) (hones : OneSizes files) :
    ReadsFiles files c where
  blocks _ hreads r hr _ hentry _ hdata :=
    (h.reads hones hreads).hit hr (hones r hr) hentry hdata
  scans r hr _ cb s start end_ := by
    obtain ⟨state, threw, c', hx, hy, -⟩ := h.scan cb start end_ hr hones s
    rw [hx, hy]
    exact ⟨rfl, rfl⟩

end

/-! ## A session -/

theorem written_files_of_mem {target : Nat} {tables : List (SSTablePath × SSTable)}
    {files : StoredFiles} {path : SSTablePath} (h : ∀ w ∈ tables, w.1 ≠ path) :
    written_files target tables files path = files path := by
  induction tables generalizing files with
  | nil => rfl
  | cons w tables ih =>
      rw [written_files, List.foldl_cons]
      refine (ih fun w' hw' => h w' (List.mem_cons_of_mem _ hw')).trans ?_
      exact Function.update_of_ne (h w List.mem_cons_self).symm _ _

theorem removed_files_le {paths : List SSTablePath} {files : StoredFiles} {path : SSTablePath}
    {file : Bytes} (h : removed_files paths files path = some file) : files path = some file := by
  induction paths generalizing files with
  | nil => exact h
  | cons p paths ih =>
      rw [removed_files, List.foldl_cons] at h
      have hrest := ih h
      by_cases hp : path = p
      · rw [hp, Function.update_self] at hrest
        cases hrest
      · rwa [Function.update_of_ne hp] at hrest

/-- A write keeps the cache fresh when the cache holds no block of the path. -/
theorem FreshCache.step {s : CachedSession} (h : FreshCache s.files s.block_cache) {st : Step}
    (hunread : Unread s (.db st)) : FreshCache (s.act (.db st)).files s.block_cache := by
  refine ⟨h.coherent, fun e he r hr hpath => h.stored e he r ?_ hpath⟩
  obtain ⟨file, hfile, hopen⟩ := hr
  have hkept := removed_files_le hfile
  rw [written_files_of_mem fun w hw heq => hunread w hw e he (by rw [heq, hpath])] at hkept
  exact ⟨file, hkept, hopen⟩

theorem FreshCache.act {s : CachedSession} (h : FreshCache s.files s.block_cache)
    {a : CachedStep} (hunread : Unread s a) :
    FreshCache (s.act a).files (s.act a).block_cache := by
  cases a with
  | db st => exact h.step hunread
  | query req =>
      obtain ⟨a, c', hx, -, hreads⟩ := h.query hunread req s.db
      rw [CachedSession.act, hx]
      exact h.reads hunread hreads

/-- In a session that writes no file while the cache holds blocks of its path, every
query finds in the cache what the files hold. -/
theorem cache_serves_files (cfg : DBConfig) (disk : Disk) (listing : List SSTablePath)
    (heights : Nat → Fin kMaxHeight) (files : StoredFiles)
    (block_cache_bytes block_target_bytes : Nat) (steps : List CachedStep)
    (h : Run.Along CachedSession.act Unread (cachedSession cfg disk listing heights files
      block_cache_bytes block_target_bytes) steps) :
    Run.Along CachedSession.act ServesFiles (cachedSession cfg disk listing heights files
      block_cache_bytes block_target_bytes) steps := by
  refine h.grants (I := fun s => FreshCache s.files s.block_cache)
    (fun s a hs ha => hs.act ha) (fun s a hs ha => ?_) (fresh_new files block_cache_bytes)
  cases a with
  | db st => trivial
  | query req =>
      obtain ⟨a, c', hx, hy, -⟩ := hs.query ha req s.db
      exact ⟨hs.readsFiles ha, by rw [hx, hy]⟩

/-! ## Files that were written -/

/-- What is read at an offset starts with the count of its block. -/
theorem Holds.count_at {file : Bytes} {entry : IndexEntry} {block : List Event}
    (h : Holds file entry block) :
    r32 (file.drop entry.block_offset.toNat) = .ofNat block.length ∧
      entry.block_size.toNat = BlockBuilder.encodedSize block.length := by
  have hsize := (Checked.pread_length h.read).symm.trans (blockBytes_length h.nonempty)
  have hcount : r32 (blockBytes block) = .ofNat block.length :=
    BlockBuilder.r32_finish (b := ⟨0, block⟩) h.nonempty
  have hread := h.read
  rw [pread] at hread
  split at hread
  · rw [← Option.some.inj hread, r32_take] at hcount
    · exact ⟨hcount, hsize⟩
    · rw [hsize, BlockBuilder.encodedSize]
      omega
  · cases hread

/-- The index of a file that a writer finished gives an offset one size. -/
theorem OfWriter.one_size {level sequence target : Nat} {events : List Event} {r : SSTableReader}
    (h : OfWriter level sequence target events r) : OneSize r.index := by
  intro a ha b hb hoffset
  obtain ⟨i, hi⟩ := List.mem_iff_getElem?.mp ha
  obtain ⟨j, hj⟩ := List.mem_iff_getElem?.mp hb
  obtain ⟨A, -, hA⟩ := hold_at h.blocks hi
  obtain ⟨B, -, hB⟩ := hold_at h.blocks hj
  obtain ⟨hcountA, hsizeA⟩ := hA.count_at
  obtain ⟨hcountB, hsizeB⟩ := hB.count_at
  have hcount : A.length = B.length := by
    rw [hoffset, hcountB] at hcountA
    have hnat := congrArg UInt32.toNat hcountA
    rw [UInt32.toNat_ofNat_of_lt' hA.count, UInt32.toNat_ofNat_of_lt' hB.count] at hnat
    exact hnat.symm
  refine UInt32.toNat_inj.mp ?_
  rw [hsizeA, hsizeB, hcount]

/-! ## A file of one event -/

theorem mem_cached {c : BlockCache} (h : c.Coherent) {e : BlockCache.Entry} (he : e ∈ c.lru) :
    cached e.key c = some e.data := by
  obtain ⟨hco, hmem, -, -⟩ := BlockCache.get_spec h e.key
  have hget : (c.get e.key).1 = some e.node := by
    rw [BlockCache.get, (h.index e.key e.node).mpr ⟨e, he, rfl, rfl⟩]
  rw [cached, hget, Option.map_some, BlockCache.node?_of_mem hco.nodes ((hmem e).mpr he)]
  rfl

/-- The block of a single event. -/
def oneEntry (e : Event) : IndexEntry := ⟨e.key, 0, 113⟩

theorem open_one (level sequence target : Nat) {filter : BloomFilter} (hfilter : filter.Addressed)
    (e : Event) (path : SSTablePath) :
    ∃ r, SSTableReader.open_ path (SSTableWriter.write level sequence target filter [e]).1 = .ok r ∧
      r.path = path ∧ r.index.entries = [oneEntry e] ∧
      r.info.min_key = e.key ∧ r.info.max_key = e.key ∧
      pread r.file 113 0 = some (blockBytes [e]) := by
  have hblocks : blocksOf target [e] = [[e]] := rfl
  have hbytes : (blockBytes [e]).length = 113 := blockBytes_length (by simp)
  have hfile : (SSTableWriter.write level sequence target filter [e]).1.length < 2 ^ 63 := by
    obtain ⟨filled, -, hlen⟩ := write_length level sequence target hfilter [e]
    have hbits : BloomFilter.byte_count filled.m < 2 ^ 32 := UInt32.toNat_lt _
    have hfooter : kSSTableFooterSize = 56 := rfl
    have hentry : IndexEntry.kEncodedSize = 32 := rfl
    rw [hlen, hblocks, hentry, hfooter, List.flatMap_singleton, hbytes, List.length_singleton]
    omega
  obtain ⟨filled, -, ⟨back, hback⟩, hopen⟩ := open_finished hfilter hfile path
  have hentries : (entriesAt 0 [[e]]).take (IndexBlock.readBack [[e]].length) = [oneEntry e] := by
    rw [entriesAt, hbytes]
    rfl
  rw [hblocks, List.flatMap_singleton] at hback
  rw [hblocks, hentries] at hopen
  refine ⟨_, hopen, rfl, rfl, rfl, rfl, ?_⟩
  have hread := pread_part (a := []) (c := back) hbytes (by decide)
  rw [List.nil_append, ← hback] at hread
  exact hread

/-- A scan that reaches the block leaves the cache as reading it does. -/
theorem scan_one {r : SSTableReader} {e : Event} (hindex : r.index.entries = [oneEntry e])
    (hmin : r.info.min_key = e.key) (hmax : r.info.max_key = e.key) {start end_ : Key}
    (hlo : start ≤ e.key) (hhi : e.key ≤ end_) (hne : start ≠ end_) {σ : Type} (cb : Callback σ)
    (s : σ) (cache : Option BlockCache) :
    (r.scan start end_ cb s cache).cache = (r.read_block_at 0 113 cache).2 := by
  have hmay : r.may_contain start end_ = true := by
    rw [SSTableReader.may_contain, hmin, hmax, if_neg, if_neg fun h => hne h.1]
    intro h
    exact h.elim (not_lt.mpr hhi) (not_lt.mpr hlo)
  have hblocks : r.index.blocks_in_range start end_ = [0] := by
    rw [IndexBlock.blocks_in_range, hindex, if_neg (by simp), List.length_singleton,
      Bisect.bisect, if_neg (by omega)]
    exact if_neg (not_lt.mpr hhi)
  rw [SSTableReader.scan, hmay, if_pos rfl, hblocks, SSTableReader.scan_blocks, hindex]
  simp only [List.getElem?_cons_zero, oneEntry]
  obtain ⟨read, cache'⟩ := r.read_block_at 0 113 cache
  cases read with
  | error err => rfl
  | ok blk =>
      dsimp only
      obtain ⟨s', more⟩ := block_scan start end_ cb s blk.events
      cases more with
      | false => rfl
      | true => rfl

/-- A query on a database with one listed file leaves the cache as its scan does. -/
theorem query_one {db : DB} (req : QueryRequest) {sym_id : UInt32} {info : SSTableInfo}
    {files : StoredFiles} {file : Bytes} {r : SSTableReader} (hclosed : db.closed = false)
    (hsym : db.symbols.lookup req.symbol = some sym_id)
    (hmems : (scan_memtables req sym_id db.active_mem db.imm_mems {}).done = false)
    (hinfos : files_to_scan db.levels = [info])
    (hmay : info.may_contain (req.start_key sym_id) (req.end_key sym_id) = true)
    (hfile : files info.path = some file) (hopen : SSTableReader.open_ info.path file = .ok r)
    (cache : Option BlockCache) :
    ∃ c, (db.query_stored files cache req).2 =
      (r.scan (req.start_key sym_id) (req.end_key sym_id) req.filter_and_collect c cache).cache := by
  rw [DB.query_stored, hclosed, if_neg Bool.false_ne_true, hsym]
  dsimp only
  generalize scan_memtables req sym_id db.active_mem db.imm_mems {} = c at hmems
  refine ⟨{ c with
    result.stats.files_considered := c.result.stats.files_considered + 1 }, ?_⟩
  have hgo : ¬ c.done = true := by rw [hmems]; exact Bool.false_ne_true
  rw [hinfos, List.foldl_cons, List.foldl_nil, scan_stored_file, if_neg hgo]
  dsimp only
  rw [if_pos hmay, hfile]
  dsimp only
  rw [hopen]
  dsimp only
  split
  · next hx => rw [hx]
  · next hx => rw [hx]

/-! ## A file that is written once -/

def freshSession : CachedSession :=
  cachedSession unlogged {} [] (fun _ => 0) (fun _ => none) 1000 65536

/-- The event that a session on an empty directory writes first. -/
def onlyTrade : Event := { symbol_id := 1, sequence_id := 1 }

/-- A write, a flush, and two queries, the second of which finds the block in the cache. -/
def freshRun : List CachedStep :=
  [.db (.append [65] {} 0 {}), .db .rotate, .db .flush_front, .query { symbol := [65] },
    .query { symbol := [65] }]

theorem onlyTrade_one_size : OneSizes (Function.update (fun _ => none) (DB.flush_path 1)
    (some (tableBytes 65536 (SSTable.write 0 1 [onlyTrade])))) := by
  rintro r ⟨file, hfile, hopen⟩
  by_cases hpath : r.path = DB.flush_path 1
  · obtain ⟨r', hopen', -, hindex, -⟩ := open_one 0 1 65536 (BloomFilter.new_addressed .default)
      onlyTrade (DB.flush_path 1)
    rw [hpath, Function.update_self] at hfile
    rw [hpath, ← Option.some.inj hfile] at hopen
    obtain rfl : r' = r := Except.ok.inj (hopen'.symm.trans hopen)
    intro a ha b hb _
    rw [hindex] at ha hb
    rw [List.mem_singleton.mp ha, List.mem_singleton.mp hb]
  · rw [Function.update_of_ne hpath] at hfile
    cases hfile

theorem cache_serves_files_twice : Run.Along CachedSession.act ServesFiles freshSession freshRun := by
  refine cache_serves_files unlogged {} [] (fun _ => 0) (fun _ => none) 1000 65536 freshRun ?_
  refine ⟨?_, ?_, ?_, onlyTrade_one_size, onlyTrade_one_size, trivial⟩
  · intro w _ e he
    cases he
  · intro w _ e he
    cases he
  · intro w _ e he
    cases he

/-! ## A file that is overwritten -/

/-- The files that the session leaves, and the next session on them. -/
def leftFiles : StoredFiles :=
  ((flushedSession.map CachedStep.db).foldl CachedSession.act
    (cachedSession unlogged {} [] (fun _ => 0) (fun _ => none) 1000 65536)).files

def staleSession : CachedSession :=
  cachedSession unlogged flushedDisk [DB.flush_path 1] (fun _ => 0) leftFiles 1000 65536

/-- The event in the file, and the one that comes after. -/
def firstTrade : Event := { symbol_id := 1, sequence_id := 1 }
def laterTrade : Event :=
  { timestamp_ns := 5, symbol_id := (reopened.intern [65]).1, sequence_id := 1 }

/-- A query, a write, a flush and the query again. -/
def staleRun : List CachedStep :=
  [.query { symbol := [65] }, .db (.append [65] { timestamp_ns := 5 } 0 {}), .db .rotate,
    .db .flush_front, .query { symbol := [65] }]

theorem leftFiles_first :
    leftFiles (DB.flush_path 1) = some (tableBytes 65536 (SSTable.write 0 1 [firstTrade])) := rfl

theorem later_written (s : CachedSession) (h : s.db = reopened) :
    ((((s.act (.db (.append [65] { timestamp_ns := 5 } 0 {}))).act (.db .rotate)).act
      (.db .flush_front)).files (DB.flush_path 1) =
        some (tableBytes s.block_target_bytes (SSTable.write 0 1 [laterTrade]))) := by
  obtain ⟨db, files, cache, target⟩ := s
  obtain rfl : db = reopened := h
  rfl

/-- The query reads the block of the file into the cache. -/
theorem query_caches {r : SSTableReader} (hopen : SSTableReader.open_ (DB.flush_path 1)
      (tableBytes 65536 (SSTable.write 0 1 [firstTrade])) = .ok r)
    (hindex : r.index.entries = [oneEntry firstTrade]) (hmin : r.info.min_key = firstTrade.key)
    (hmax : r.info.max_key = firstTrade.key) (cache : Option BlockCache) :
    (reopened.query_stored leftFiles cache { symbol := [65] }).2 =
      (r.read_block_at 0 113 cache).2 := by
  have hsym : reopened.symbols.lookup [65] = some 1 := flushedDisk_symbol
  have hinfos : files_to_scan reopened.levels =
      [⟨DB.flush_path 1, (SSTable.write 0 1 [firstTrade]).meta_⟩] := rfl
  obtain ⟨c, hc⟩ := query_one { symbol := [65] } rfl hsym rfl hinfos (by decide)
    leftFiles_first hopen cache
  rw [hc]
  exact scan_one hindex hmin hmax (by decide) (by decide) (by decide) _ _ _

theorem stale_cached : cached ⟨DB.flush_path 1, 0⟩
    (staleSession.act (.query { symbol := [65] })).block_cache = some (blockBytes [firstTrade]) := by
  obtain ⟨r, hopen, hpath, hindex, hmin, hmax, hread⟩ := open_one 0 1 65536
    (BloomFilter.new_addressed .default) firstTrade (DB.flush_path 1)
  have hempty : cached ⟨DB.flush_path 1, (0 : UInt64).toNat⟩ { max_bytes := 1000 } = none := rfl
  have hcache : (reopened.query_stored leftFiles (some { max_bytes := 1000 }) { symbol := [65] }).2 =
      some (BlockCache.put ⟨DB.flush_path 1, 0⟩ (blockBytes [firstTrade])
        (BlockCache.get ⟨DB.flush_path 1, 0⟩ { max_bytes := 1000 }).2) := by
    rw [query_caches hopen hindex hmin hmax, read_block_at_cached, hpath, hempty]
    simp only [show (113 : UInt32).toNat = 113 from rfl, hread]
    rfl
  have hco := BlockCache.coherent_new 1000
  obtain ⟨hput, hlru, -⟩ := BlockCache.put_spec (BlockCache.get_spec hco ⟨DB.flush_path 1, 0⟩).1
    ⟨DB.flush_path 1, 0⟩ (blockBytes [firstTrade])
  have hblock : (staleSession.act (.query { symbol := [65] })).block_cache =
      BlockCache.put ⟨DB.flush_path 1, 0⟩ (blockBytes [firstTrade])
        (BlockCache.get ⟨DB.flush_path 1, 0⟩ { max_bytes := 1000 }).2 :=
    congrArg (·.getD { max_bytes := 1000 }) hcache
  have hbytes : (blockBytes [firstTrade]).length = 113 := blockBytes_length (by simp)
  rw [hblock]
  refine mem_cached hput (e := ⟨0, ⟨DB.flush_path 1, 0⟩, blockBytes [firstTrade]⟩) ?_
  have hroom : (blockBytes [firstTrade]).length ≤ 1000 := by omega
  rw [hlru, Fitting.fit]
  exact if_pos hroom ▸ List.mem_cons_self

theorem blocks_differ : blockBytes [firstTrade] ≠ blockBytes [laterTrade] := by
  intro h
  have hcount : ∀ e : Event, [e].length < 2 ^ 32 := by simp
  obtain ⟨m, hfirst⟩ := BlockBuilder.decode_finish (b := ⟨0, [firstTrade]⟩) (by simp) (hcount _)
  obtain ⟨m', hlater⟩ := BlockBuilder.decode_finish (b := ⟨0, [laterTrade]⟩) (by simp) (hcount _)
  have hfirst' : Block.decode (blockBytes [firstTrade]) = .ok ⟨m, [firstTrade]⟩ := hfirst
  have hlater' : Block.decode (blockBytes [laterTrade]) = .ok ⟨m', [laterTrade]⟩ := hlater
  rw [h, hlater'] at hfirst'
  have hevents := congrArg Block.events (Except.ok.inj hfirst')
  have htime := congrArg Event.timestamp_ns (List.head_eq_of_cons_eq hevents)
  exact absurd htime (by decide)

/-- The second query finds the block of the file that was overwritten. -/
theorem stale_block_served : ¬ Run.Along CachedSession.act ServesFiles staleSession staleRun := by
  intro h
  obtain ⟨-, -, -, -, ⟨hserve, -⟩, -⟩ := h
  obtain ⟨r, hopen, hpath, hindex, -, -, hread⟩ := open_one 0 1 65536
    (BloomFilter.new_addressed .default) laterTrade (DB.flush_path 1)
  have hfile := later_written (staleSession.act (.query { symbol := [65] })) rfl
  have hserved := hserve.blocks _ .start r ⟨_, by rw [hpath]; exact hfile, by rw [hpath]; exact hopen⟩
    (oneEntry laterTrade) (by rw [hindex]; exact List.mem_cons_self) (blockBytes [firstTrade])
    (by rw [hpath]; exact stale_cached)
  have hsame : pread r.file 113 0 = some (blockBytes [firstTrade]) := hserved
  rw [hread] at hsame
  exact blocks_differ (Option.some.inj hsame).symm

end Kronos
