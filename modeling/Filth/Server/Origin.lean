import Filth.Http.Printing
import Filth.Server.Prepare

/-!
# The origin server

`HTTP_Origin_Server::request` and `dirtoHTML`, `src/HTTP_Origin_Server.cpp:106–283`, by what the
calls they make return. Both compress what they have found, and both make an entry that says how
long it is with and without compression. A reading that is disturbed starts over; what is below
is the last attempt.
-/

namespace Filth

open Base

/-- What kind of file `stat` finds. -/
inductive FileKind where
  | dir | sock | reg | other
  deriving DecidableEq, Repr

/-- What `stat` finds. -/
structure FileStat where
  kind : FileKind
  size : Nat
  mtime : Int

/-- What the calls of `request` return. The file is read until there are as many bytes as `stat`
has said. -/
structure FileCalls where
  requestTime : Int
  stat : Except Errno FileStat
  fopen : Option Errno
  ftrylockfile : Bool
  malloc : Bool
  contents : Str
  whole : ∀ st, stat = .ok st → contents.length = st.size
  new : Bool
  compresses : Bool
  responseTime : Int

/-- What the calls of `dirtoHTML` return. -/
structure DirCalls where
  opendir : Option Errno
  malloc : Bool
  names : List Str
  readdir : Option Errno
  new : Bool
  now : Int
  compresses : Bool

/-- `HTTP_Origin_Server::request`, `src/HTTP_Origin_Server.cpp:106–217`. -/
def requestFile (compress : Str → Str) (calls : FileCalls) : Except Errno CacheEntry :=
  match calls.stat with
  | .error e => .error e
  | .ok st =>
    if st.kind = .dir then .error .eisdir
    else if st.kind = .sock then .error .espipe
    else if st.kind ≠ .reg then .error .eacces
    else match calls.fopen with
      | some e => .error e
      | none =>
        if !calls.ftrylockfile then .error .eacces
        else if !calls.malloc then .error .enomem
        else if !calls.new then .error .enomem
        else if calls.compresses then
          .ok (.new st.size (compress calls.contents).length calls.requestTime calls.responseTime
            st.mtime (compress calls.contents) .gzip)
        else .error .enomem

/-- The page that lists a directory, `src/HTTP_Origin_Server.cpp:219–283`. -/
def dirPage (path : Str) (names : List Str) : Str :=
  "<html><head></head><body>".toList ++
    names.flatMap (fun name ↦ "<p><a href=\"/".toList ++ path ++ "/".toList ++ name ++
      "\">".toList ++ name ++ "</a></p>".toList) ++ "</body></html>".toList

/-- `HTTP_Origin_Server::dirtoHTML`, `src/HTTP_Origin_Server.cpp:219–283`. -/
def dirtoHTML (compress : Str → Str) (path : Str) (calls : DirCalls) : Except Errno CacheEntry :=
  match calls.opendir with
  | some e => .error e
  | none =>
    if !calls.malloc then .error .enomem
    else match calls.readdir with
      | some e => .error e
      | none =>
        let page := cstr (dirPage path calls.names)
        if !calls.new then .error .enomem
        else if calls.compresses then
          .ok (.new page.length (compress page).length calls.now calls.now calls.now
            (compress page) .gzip)
        else .error .enomem

/-- The entries of a server with one connection: a reference points into the heap. -/
structure Shelf where
  heap : Nat → CacheEntry
  next : Nat
  cache : Str → Option Nat

/-- Put what the origin server has made on the shelf. -/
def Shelf.add (w : Shelf) : Except Errno CacheEntry → Except Errno Nat × Shelf
  | .ok e => (.ok w.next, { w with heap := Function.update w.heap w.next e, next := w.next + 1 })
  | .error err => (.error err, w)

/-- A server with one connection and the files that calls of the origin server find. Time stands
still, nothing is written to a file, and there are no sockets. -/
def World.solitary (compress : Str → Str) (uncompress : Str → Nat → Option Str)
    (files : Str → FileCalls) (dirs : Str → DirCalls) (mime : Str → Str) (date : Int → Str) :
    World Shelf Nat where
  time w := (0, w)
  get path w := (w.cache path, w)
  put path r _ w := (true, { w with cache := Function.update w.cache path (some r) })
  unget _ w := w
  adviseEvict path w := { w with cache := Function.update w.cache path none }
  load r w := w.heap r
  store r e w := { w with heap := Function.update w.heap r e }
  delete _ w := w
  mtime path w := ((files path).stat.toOption.map FileStat.mtime, w)
  request path w := w.add (requestFile compress (files path))
  dirtoHTML path w := w.add (Filth.dirtoHTML compress path (dirs path))
  putorpost _ _ _ _ w := (some .enoent, w)
  unlink _ w := (some .enoent, w)
  socket w := (none, w)
  getFlags _ w := (false, w)
  setFlags _ w := (false, w)
  connect _ _ w := (false, w)
  startClient _ _ _ w := (false, w)
  malloc _ w := (true, w)
  uncompress
  mime
  date
  indeterminate := 0

/-- An entry that says what it holds: some content, compressed, with both its sizes. The headers
that frame the body are not among those that have been pushed. -/
structure CacheEntry.Sound (compress : Str → Str) (e : CacheEntry) : Prop where
  content : ∃ content, e.buf.take e.szincache = compress content ∧
    e.szincache = (compress content).length ∧ e.szondisk = content.length
  enc : e.enc = .gzip
  omitBody : e.omitBody = false
  asifUncompressed : e.asifUncompressed = false
  hdrs : ∀ p ∈ e.hdrs.entries, p.1 ≠ .contentLength ∧ p.1 ≠ .contentEncoding ∧ Clean p.2

namespace CacheEntry

variable {compress : Str → Str}

theorem sound_new (compress : Str → Str) (content : Str) (t t' m : Int) :
    (new content.length (compress content).length t t' m (compress content) .gzip).Sound
      compress where
  content := ⟨content, List.take_length, rfl, rfl⟩
  enc := rfl
  omitBody := rfl
  asifUncompressed := rfl
  hdrs _ hp := absurd hp List.not_mem_nil

/-- What the origin server makes of a file is sound. -/
theorem sound_requestFile {calls : FileCalls} {e : CacheEntry}
    (h : requestFile compress calls = .ok e) : e.Sound compress := by
  unfold requestFile at h
  repeat' split at h
  all_goals cases h
  next st hst _ _ _ _ _ _ _ _ _ =>
    rw [← calls.whole st hst]
    exact sound_new compress calls.contents _ _ _

/-- What the origin server makes of a directory is sound. -/
theorem sound_dirtoHTML {path : Str} {calls : DirCalls} {e : CacheEntry}
    (h : dirtoHTML compress path calls = .ok e) : e.Sound compress := by
  unfold dirtoHTML at h
  dsimp only at h
  repeat' split at h
  all_goals cases h
  exact sound_new compress _ _ _ _

theorem Sound.pushHeader {e : CacheEntry} (he : e.Sound compress) {h : Header} {v : Str}
    (hl : h ≠ .contentLength) (he' : h ≠ .contentEncoding) (hv : Clean v) :
    (e.pushHeader h v).Sound compress := by
  refine { he with hdrs := ?_ }
  intro p hp
  rcases List.mem_cons.mp hp with rfl | hp
  · exact ⟨hl, he', hv⟩
  · exact he.hdrs p ((List.kerase_sublist h _).subset hp)

/-- Printing a sound entry leaves it as it was. -/
theorem Sound.print {e : CacheEntry} (he : e.Sound compress) : e.print.2 = e := by
  have ho := he.omitBody
  have ha := he.asifUncompressed
  cases e
  subst ho ha
  rfl

/-- So does printing it in another way, for that time only. -/
theorem Sound.print_pushManip {e : CacheEntry} (he : e.Sound compress) (m : Manip) :
    (e.pushManip m).print.2 = e := by
  have ho := he.omitBody
  have ha := he.asifUncompressed
  cases e
  subst ho ha
  cases m <;> rfl

end CacheEntry

theorem clean_decimalInt (n : Int) : Clean (decimalInt n) := by
  unfold decimalInt
  split
  · have hminus : Clean ['-'] := by decide
    exact hminus.append (clean_decimal n.natAbs)
  · exact clean_decimal _

end Filth
