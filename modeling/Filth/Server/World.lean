import Filth.Http.CacheEntry
import Filth.Server.Client

/-!
# What requests meet outside of themselves

A request calls the clock, the cache, the origin server, sockets, memory and zlib. What these
do is a parameter: results that are proved for every such world hold whatever the callees
answer, so in particular whatever other connections do in between. A pointer to a cache entry
is a reference; the entry it points to belongs to the world.
-/

namespace Filth

open Base

/-- Error numbers that are told apart. -/
inductive Errno where
  | eacces | eisdir | enoent | enomem | enotsup | eperm | espipe | other (n : Nat)
  deriving DecidableEq, Repr

/-- The callees of a request, on their own states. -/
structure World (ω Ref : Type) where
  /-- `::time(NULL)`. -/
  time : ω → Int × ω
  /-- `Cache::get`. -/
  get : Str → ω → Option Ref × ω
  /-- `Cache::put`. -/
  put : Str → Ref → Nat → ω → Bool × ω
  /-- `Cache::unget`. -/
  unget : Str → ω → ω
  /-- `Cache::advise_evict`. -/
  adviseEvict : Str → ω → ω
  /-- The entry that a reference points to. -/
  load : Ref → ω → CacheEntry
  /-- Change that entry. -/
  store : Ref → CacheEntry → ω → ω
  /-- `delete` of an entry. -/
  delete : Ref → ω → ω
  /-- Modification time by `stat`, if the file is there. -/
  mtime : Str → ω → Option Int × ω
  /-- `HTTP_Origin_Server::request`. -/
  request : Str → ω → Except Errno Ref × ω
  /-- `HTTP_Origin_Server::dirtoHTML`. -/
  dirtoHTML : Str → ω → Except Errno Ref × ω
  /-- `HTTP_Origin_Server::putorpost`; true means appending, and no error number success. -/
  putorpost : Str → Str → ContentCoding → Bool → ω → Option Errno × ω
  /-- `HTTP_Origin_Server::unlink`; no error number means success. -/
  unlink : Str → ω → Option Errno × ω
  /-- `socket`. -/
  socket : ω → Option Nat × ω
  /-- `fcntl` with `F_GETFL`, then with `F_SETFL`. -/
  getFlags : Nat → ω → Bool × ω
  setFlags : Nat → ω → Bool × ω
  /-- `connect`, tried again while it is interrupted. -/
  connect : Nat → Str → ω → Bool × ω
  /-- Make the work that talks to a domain socket, and schedule it. -/
  startClient : Nat → Hdrs → Str → ω → Bool × ω
  /-- `malloc`. -/
  malloc : Nat → ω → Bool × ω
  /-- `gzip::uncompress` into a buffer of a given size. -/
  uncompress : Str → Nat → Option Str
  /-- `mime_types::lookup`. -/
  mime : Str → Str
  /-- `Time_nr::print`. -/
  date : Int → Str
  /-- Value of a variable that is read before it is set. -/
  indeterminate : Int

/-- What the callees of a request may make of a world. A reset may delete an entry as well. -/
inductive World.Moves {ω Ref : Type} (W : World ω Ref) : ω → ω → Prop
  | time (w) : W.Moves w (W.time w).2
  | get (path w) : W.Moves w (W.get path w).2
  | put (path r sz w) : W.Moves w (W.put path r sz w).2
  | unget (path w) : W.Moves w (W.unget path w)
  | adviseEvict (path w) : W.Moves w (W.adviseEvict path w)
  | store (r e w) : W.Moves w (W.store r e w)
  | delete (r w) : W.Moves w (W.delete r w)
  | mtime (path w) : W.Moves w (W.mtime path w).2
  | request (path w) : W.Moves w (W.request path w).2
  | dirtoHTML (path w) : W.Moves w (W.dirtoHTML path w).2
  | putorpost (path body enc append w) : W.Moves w (W.putorpost path body enc append w).2
  | unlink (path w) : W.Moves w (W.unlink path w).2
  | socket (w) : W.Moves w (W.socket w).2
  | getFlags (fd w) : W.Moves w (W.getFlags fd w).2
  | setFlags (fd w) : W.Moves w (W.setFlags fd w).2
  | connect (fd path w) : W.Moves w (W.connect fd path w).2
  | startClient (fd hdrs body w) : W.Moves w (W.startClient fd hdrs body w).2
  | malloc (n w) : W.Moves w (W.malloc n w).2

/-- A world that never changes: nothing is cached, every call fails and no time passes. -/
def World.inert (entry : CacheEntry) : World Unit Unit where
  time _ := (0, ())
  get _ _ := (none, ())
  put _ _ _ _ := (false, ())
  unget _ _ := ()
  adviseEvict _ _ := ()
  load _ _ := entry
  store _ _ _ := ()
  delete _ _ := ()
  mtime _ _ := (none, ())
  request _ _ := (.error .enoent, ())
  dirtoHTML _ _ := (.error .enoent, ())
  putorpost _ _ _ _ _ := (some .enoent, ())
  unlink _ _ := (some .enoent, ())
  socket _ := (none, ())
  getFlags _ _ := (false, ())
  setFlags _ _ := (false, ())
  connect _ _ _ := (false, ())
  startClient _ _ _ _ := (false, ())
  malloc _ _ := (false, ())
  uncompress _ _ := none
  mime _ := []
  date _ := []
  indeterminate := 0

/-- A connection's work and the world around it, `src/HTTP_2616_Server_Work.hpp:54–66`. `refs` is no
member of the source: it lists the handles under which this work holds a reference. -/
structure Scene (ω Ref : Type) where
  client : Client
  stat : Status
  respIsCached : Bool
  c : Option Ref
  uncompressed : Option Str
  nosch : Bool
  world : ω
  refs : List Str

/-- A connection as its constructors leave it. -/
def Scene.new {ω Ref : Type} (world : ω) : Scene ω Ref :=
  { client := .new, stat := .ok, respIsCached := false, c := none, uncompressed := none
    nosch := false, world, refs := [] }

/-- Programs of a connection's work. -/
abbrev WorkM (ω Ref : Type) := Eff (Scene ω Ref) Status

namespace WorkM

variable {ω Ref α : Type} (W : World ω Ref)

/-- Run a program on what the request says. -/
def client (x : ClientM α) : WorkM ω Ref α :=
  x.zoom Scene.client fun w s ↦ { s with client := w }

/-- Look at what the request says. -/
def asks (g : Client → α) : WorkM ω Ref α := Eff.gets fun s ↦ g s.client

/-- Call something outside. -/
def call (f : ω → α × ω) : WorkM ω Ref α :=
  Eff.modifyGet fun s ↦ ((f s.world).1, { s with world := (f s.world).2 })

/-- `cache->get`. -/
def get (path : Str) : WorkM ω Ref (Option Ref) :=
  Eff.modifyGet fun s ↦
    let (r, world) := W.get path s.world
    (r, { s with world, refs := if r.isSome then path :: s.refs else s.refs })

/-- `cache->put`. -/
def put (path : Str) (r : Ref) (sz : Nat) : WorkM ω Ref Bool :=
  Eff.modifyGet fun s ↦
    let (stored, world) := W.put path r sz s.world
    (stored, { s with world, refs := if stored then path :: s.refs else s.refs })

/-- `cache->unget`. -/
def unget (path : Str) : WorkM ω Ref Unit :=
  Eff.modify fun s ↦ { s with world := W.unget path s.world, refs := s.refs.erase path }

/-- `cache->advise_evict`. -/
def adviseEvict (path : Str) : WorkM ω Ref Unit :=
  Eff.modify fun s ↦ { s with world := W.adviseEvict path s.world }

/-- Look at an entry. -/
def load (r : Ref) (g : CacheEntry → α) : WorkM ω Ref α :=
  Eff.gets fun s ↦ g (W.load r s.world)

/-- Change an entry. -/
def push (r : Ref) (f : CacheEntry → CacheEntry) : WorkM ω Ref Unit :=
  Eff.modify fun s ↦ { s with world := W.store r (f (W.load r s.world)) s.world }

/-- Set the pointer to the response. -/
def setC (c : Option Ref) : WorkM ω Ref Unit := Eff.modify fun s ↦ { s with c }

/-- Set `resp_is_cached`. -/
def setCached (b : Bool) : WorkM ω Ref Unit := Eff.modify fun s ↦ { s with respIsCached := b }

variable {β : Type} {W} {path : Str} {s : Scene ω Ref}

theorem setCached_bind (b : Bool) (f : Unit → WorkM ω Ref β) (s : Scene ω Ref) :
    (setCached b >>= f) s = f () { s with respIsCached := b } := rfl

theorem setC_bind (c : Option Ref) (f : Unit → WorkM ω Ref β) (s : Scene ω Ref) :
    (setC c >>= f) s = f () { s with c } := rfl

theorem asks_bind (g : Client → α) (f : α → WorkM ω Ref β) (s : Scene ω Ref) :
    (asks g >>= f) s = f (g s.client) s := rfl

theorem load_bind (r : Ref) (g : CacheEntry → α) (f : α → WorkM ω Ref β) (s : Scene ω Ref) :
    (load W r g >>= f) s = f (g (W.load r s.world)) s := rfl

theorem call_bind {f : ω → α × ω} {a : α} {world : ω} (h : f s.world = (a, world))
    (g : α → WorkM ω Ref β) : (call f >>= g) s = g a { s with world } := by
  unfold call
  rw [Eff.modifyGet_bind, h]

/-- What follows a lookup that finds nothing. -/
theorem get_bind_none {world : ω} (h : W.get path s.world = (none, world))
    (f : Option Ref → WorkM ω Ref β) : (get W path >>= f) s = f none { s with world } := by
  unfold WorkM.get
  rw [Eff.modifyGet_bind, h]
  rfl

/-- What follows a lookup that finds an entry. -/
theorem get_bind_some {world : ω} {r : Ref} (h : W.get path s.world = (some r, world))
    (f : Option Ref → WorkM ω Ref β) :
    (get W path >>= f) s = f (some r) { s with world, refs := path :: s.refs } := by
  unfold WorkM.get
  rw [Eff.modifyGet_bind, h]
  rfl

end WorkM
end Filth
