import Filth.Server.Turns
import Filth.Server.Relay

/-!
# Reading a body

`Work::rduntil` of a number of bytes into a string, `src/Work.cpp:47–63`, one `read` after the
other, with the error number that it returns. And the copy of the bytes that have arrived with the
headers into a buffer of fixed size, `src/HTTP_Server_Work.cpp:57–64` and
`src/HTTP_Client_Work.cpp:85–92`.
-/

namespace Filth

open Base

/-- Error numbers that reading tells apart; 0 is none. -/
inductive ReadErrno where
  | zero | eintr | again | other (n : Nat)
  deriving DecidableEq, Repr

/-- What a call of `read` gives: bytes, an interruption, nothing yet, the end of the file, or
another error. -/
inductive ReadResult where
  | got (bytes : Str)
  | intr
  | again
  | eof
  | failed (n : Nat)
  deriving DecidableEq, Repr

/-- A call of `rduntil` under way: what has been appended to, what is still to be read, `errno`, how
much has been taken from the socket, and whether the loop has been left. -/
structure Reading where
  s : Str
  tord : Nat
  errno : ReadErrno
  taken : Nat
  stopped : Bool
  deriving DecidableEq, Repr

/-- What is returned, if the loop is over; `src/Work.cpp:62`. -/
def Reading.value (st : Reading) : Option ReadErrno :=
  if st.tord = 0 then some .zero else if st.stopped then some st.errno else none

/-- The loop, one `read` at a time; `src/Work.cpp:47–63`. A `read` asks for all that the buffer has
room for, one byte kept for a NUL, and what is appended ends at the first NUL. -/
def reading (rdbufsz : Nat) (init : Reading) : Machine Reading ReadResult where
  init
  step st r :=
    if st.tord = 0 ∨ st.stopped = true then none
    else match r with
      | .got bytes =>
        if bytes ≠ [] ∧ bytes.length ≤ rdbufsz - 1 then
          some { st with
            s := st.s ++ cstr bytes
            tord := sizeSub st.tord bytes.length
            taken := st.taken + bytes.length }
        else none
      | .intr => some { st with errno := .eintr }
      | .again => some { st with errno := .again, stopped := true }
      | .eof => some { st with stopped := true }
      | .failed n => some { st with errno := .other n, stopped := true }

/-- A call on a string, for a number of bytes, with whatever `errno` holds. -/
def Reading.start (s : Str) (tord : Nat) (errno : ReadErrno) : Reading :=
  { s, tord, errno, taken := 0, stopped := false }

/-- The bytes of a sequence of results. -/
def gots : List ReadResult → List Str
  | [] => []
  | .got bytes :: rs => bytes :: gots rs
  | _ :: rs => gots rs

/-- The loop, with interruptions and errors left out, is `rduntilBody`. -/
theorem rduntilBody_of_reading {rdbufsz : Nat} {init st st' : Reading} {rs : List ReadResult}
    (h : (reading rdbufsz init).run st rs = some st') :
    (st'.s, st'.tord) = rduntilBody st.s st.tord (gots rs) := by
  induction rs generalizing st with
  | nil =>
    cases h
    rfl
  | cons r rs ih =>
    rw [Machine.run_cons] at h
    obtain ⟨st₁, h₁, hrest⟩ := Option.bind_eq_some_iff.mp h
    rw [ih hrest]
    unfold reading at h₁
    dsimp only at h₁
    split at h₁
    · cases h₁
    · next hgo =>
      rw [not_or] at hgo
      cases r with
      | got bytes =>
        dsimp only at h₁
        split at h₁
        · cases h₁
          rw [gots, rduntilBody, if_neg hgo.1]
        · cases h₁
      | _ =>
        cases h₁
        rfl

/-- At most `n` bytes have been taken and appended, `tord` is what is left of `n`, and 0 is
returned exactly when nothing is left. -/
structure KeepsCount (s : Str) (n : Nat) (st : Reading) : Prop where
  taken : st.taken ≤ n
  appended : ∃ bytes, st.s = s ++ bytes ∧ bytes.length = st.taken
  tord : st.tord + st.taken = n
  value : ∀ v, st.value = some v → (v = .zero ↔ st.tord = 0)

/-- A `read` brings no NUL and no more than is still to be read, and if it meets the end of the
file, `errno` has been set before. -/
def ReadResult.Measured (st : Reading) : ReadResult → Prop
  | .got bytes => '\x00' ∉ bytes ∧ bytes.length ≤ st.tord
  | .eof => st.errno ≠ .zero
  | _ => True

/-- Nothing is lost of a string as a C string if it has no NUL. -/
private theorem length_cstr_eq_iff (s : Str) : (cstr s).length = s.length ↔ '\x00' ∉ s := by
  constructor
  · intro h
    have heq : cstr s = s := (List.takeWhile_prefix _).eq_of_length h
    rw [← heq]
    exact nul_not_mem_cstr s
  · intro h
    rw [cstr_eq_self h]

section Count

variable {rdbufsz : Nat} {s : Str} {n : Nat} {init st st' : Reading} {r : ReadResult}

/-- The results that end the loop leave the counts alone. -/
theorem keepsCount_stopped_iff (h : KeepsCount s n st) (hgo : st.tord ≠ 0) (errno : ReadErrno) :
    KeepsCount s n { st with errno, stopped := true } ↔ errno ≠ .zero := by
  constructor
  · intro h' herrno
    refine hgo ((h'.value errno ?_).mp herrno)
    rw [Reading.value, if_neg hgo, if_pos rfl]
  · intro herrno
    refine ⟨h.taken, h.appended, h.tord, fun v hv ↦ ?_⟩
    rw [Reading.value, if_neg hgo, if_pos rfl] at hv
    cases hv
    exact iff_of_false herrno hgo

/-- So do bytes, if they are counted as they are appended. -/
private theorem keepsCount_got_iff (hn : n < sizeBound) (h : KeepsCount s n st)
    (hrunning : st.stopped = false) (bytes : Str) :
    KeepsCount s n { st with
        s := st.s ++ cstr bytes
        tord := sizeSub st.tord bytes.length
        taken := st.taken + bytes.length } ↔
      '\x00' ∉ bytes ∧ bytes.length ≤ st.tord := by
  obtain ⟨before, hs, hlen⟩ := h.appended
  have htord := h.tord
  constructor
  · intro h'
    obtain ⟨after, hs', hlen'⟩ := h'.appended
    have hle := h'.taken
    dsimp only at hs' hlen' hle
    have hcstr : (cstr bytes).length = bytes.length := by
      have hboth := congrArg List.length hs'
      simp only [hs, List.length_append, hlen, hlen'] at hboth
      omega
    exact ⟨(length_cstr_eq_iff bytes).mp hcstr, by omega⟩
  · rintro ⟨hnul, hle⟩
    have hsub : sizeSub st.tord bytes.length = st.tord - bytes.length :=
      sizeSub_of_add (by omega) (by omega)
    rw [cstr_eq_self hnul, hsub]
    refine ⟨?_, ⟨before ++ bytes, ?_, ?_⟩, ?_, fun v hv ↦ ?_⟩
    · dsimp only
      omega
    · rw [hs, List.append_assoc]
    · simp [hlen]
    · dsimp only
      omega
    · dsimp only [Reading.value] at hv ⊢
      split at hv
      · next hzero =>
        cases hv
        exact iff_of_true rfl hzero
      · rw [hrunning] at hv
        cases hv

/-- One `read` keeps the counts right if and only if it is measured. -/
private theorem keepsCount_step_iff (hn : n < sizeBound) (h : KeepsCount s n st)
    (hstep : (reading rdbufsz init).step st r = some st') :
    KeepsCount s n st' ↔ r.Measured st := by
  unfold reading at hstep
  dsimp only at hstep
  split at hstep
  · cases hstep
  · next hgo =>
    rw [not_or, Bool.not_eq_true] at hgo
    obtain ⟨hgo, hrunning⟩ := hgo
    cases r with
    | got bytes =>
      dsimp only at hstep
      split at hstep
      · next hbytes =>
        cases hstep
        exact keepsCount_got_iff hn h hrunning bytes
      · cases hstep
    | intr =>
      cases hstep
      refine iff_of_true ⟨h.taken, h.appended, h.tord, fun v hv ↦ ?_⟩ trivial
      rw [Reading.value, if_neg hgo, hrunning] at hv
      cases hv
    | again =>
      cases hstep
      exact (keepsCount_stopped_iff h hgo .again).trans (iff_of_true nofun trivial)
    | eof =>
      cases hstep
      exact keepsCount_stopped_iff h hgo st.errno
    | failed m =>
      cases hstep
      exact (keepsCount_stopped_iff h hgo (.other m)).trans (iff_of_true nofun trivial)

end Count

/-- At the start nothing has been taken. -/
private theorem keepsCount_start (s : Str) (n : Nat) (errno : ReadErrno) :
    KeepsCount s n (.start s n errno) := by
  refine ⟨Nat.zero_le n, ⟨[], (List.append_nil s).symm, rfl⟩, rfl, fun v hv ↦ ?_⟩
  unfold Reading.value at hv
  split at hv
  · next hzero =>
    cases hv
    exact iff_of_true rfl hzero
  · cases hv

/-- A call of `rduntil` keeps count of what it reads, from beginning to end, if and only if every
`read` in it is measured. -/
theorem keepsCount_iff_measured {n : Nat} (hn : n < sizeBound) (rdbufsz : Nat) (s : Str)
    (errno : ReadErrno) (rs : List ReadResult) :
    (reading rdbufsz (.start s n errno)).AllStates (KeepsCount s n) (.start s n errno) rs ↔
      (reading rdbufsz (.start s n errno)).AllSteps (fun st r ↦ r.Measured st) (.start s n errno)
        rs :=
  Machine.allStates_iff_allSteps _ (J := fun _ ↦ True)
    (fun _ _ _ hP _ hstep ↦ keepsCount_step_iff hn hP hstep) (fun _ _ _ _ _ _ _ ↦ trivial)
    (keepsCount_start s n errno) trivial rs

theorem keepsCount_iff_measured_five :
    (reading cbufsz (.start [] 5 .zero)).AllStates (KeepsCount [] 5) (.start [] 5 .zero)
        [.got "hel".toList, .intr, .got "lo".toList] ↔
      (reading cbufsz (.start [] 5 .zero)).AllSteps (fun st r ↦ r.Measured st) (.start [] 5 .zero)
        [.got "hel".toList, .intr, .got "lo".toList] :=
  keepsCount_iff_measured (by decide) cbufsz [] .zero _

/-- A read that brings the next request along with the end of the body. -/
theorem not_keepsCount_pipelined :
    ¬ (reading cbufsz (.start [] 5 .again)).AllStates (KeepsCount [] 5) (.start [] 5 .again)
        [.got "helloGET / HTTP/1.1".toList] := by
  intro h
  exact absurd (h.2 _ rfl).taken (by decide)

/-! ### Reads that make up a body -/

/-- One of the reads ends with the last of the bytes that are missing; the counter wraps. -/
def Arrives (missing : Nat) (chunks : List Str) : Prop :=
  ∃ got, got <+: chunks ∧ got.flatten.length % sizeBound = missing

private theorem arrives_cons {missing : Nat} (hlt : missing < sizeBound) (hne : missing ≠ 0)
    (c : Str) (cs : List Str) :
    Arrives missing (c :: cs) ↔ Arrives (sizeSub missing c.length) cs := by
  have hwrap : ∀ n, (c.length + n) % sizeBound = missing ↔
      n % sizeBound = sizeSub missing c.length := by
    intro n
    unfold sizeSub sizeBound at *
    omega
  constructor
  · rintro ⟨got, hgot, hlen⟩
    cases got with
    | nil => exact absurd hlen.symm hne
    | cons d got =>
      obtain ⟨rfl, hrest⟩ := List.cons_prefix_cons.mp hgot
      rw [List.flatten_cons, List.length_append, hwrap] at hlen
      exact ⟨got, hrest, hlen⟩
  · rintro ⟨got, hgot, hlen⟩
    refine ⟨c :: got, List.cons_prefix_cons.mpr ⟨rfl, hgot⟩, ?_⟩
    rwa [List.flatten_cons, List.length_append, hwrap]

theorem rduntilBody_eq_zero_iff {missing : Nat} (hlt : missing < sizeBound) (s : Str)
    (chunks : List Str) : (rduntilBody s missing chunks).2 = 0 ↔ Arrives missing chunks := by
  induction chunks generalizing s missing with
  | nil =>
    constructor
    · exact fun h ↦ ⟨[], List.prefix_rfl, h.symm⟩
    · rintro ⟨got, hgot, hlen⟩
      rw [List.prefix_nil.mp hgot] at hlen
      exact hlen.symm
  | cons c cs ih =>
    unfold rduntilBody
    split
    · next hzero => exact iff_of_true hzero ⟨[], List.nil_prefix, hzero.symm⟩
    · next hne => rw [arrives_cons hlt hne, ih (sizeSub_lt _ _)]

theorem rduntilBody_lt {missing : Nat} (hlt : missing < sizeBound) (s : Str) (chunks : List Str) :
    (rduntilBody s missing chunks).2 < sizeBound := by
  induction chunks generalizing s missing with
  | nil => exact hlt
  | cons c cs ih =>
    unfold rduntilBody
    split
    · exact hlt
    · exact ih (sizeSub_lt _ _) _

/-! ### What has arrived with the headers -/

/-- The characters that are copied into the buffer when the headers are complete: as many as the
stream has, up to the length of the body. Without a body, and beyond the limit, there is no copy. -/
def copiedBody (max : Limit) (line : Str) (old : Nat) (inbuf : IStream) : Option Str :=
  match announcedSize line old with
  | .ok (n + 1) => if max.exceeded (n + 1) then none else some (inbuf.read (n + 1)).1
  | _ => none

/-- The indices of the buffer that the copy touches: those of the characters, and the next one,
for a NUL. -/
def touchedBy (copied : Option Str) : Set Nat := { i | ∃ got, copied = some got ∧ i ≤ got.length }

/-- The copy stays within the buffer. -/
def InBounds (copied : Option Str) : Prop := ∀ i ∈ touchedBy copied, i < cbufsz

theorem inBounds_iff {copied : Option Str} :
    InBounds copied ↔ ∀ got, copied = some got → got.length < cbufsz := by
  constructor
  · intro h got hgot
    exact h got.length ⟨got, hgot, le_refl _⟩
  · rintro h i ⟨got, hgot, hi⟩
    exact lt_of_le_of_lt hi (h got hgot)

/-- What a `read` of up to `n` characters takes of those that are there: nothing if a `streamsize`
cannot tell the number. -/
def taken (n : Nat) (rest : Str) : Str := if n < 2 ^ 63 then rest.take n else []

/-- What a stream in a good state gives. -/
theorem IStream.read_sound_fst (s : Str) (p n : Nat) :
    ((IStream.sound s p).read n).1 = taken n (s.drop p) := by
  unfold IStream.read taken
  rw [if_pos (IStream.good_sound s p), IStream.rest_sound]
  split
  · next hall => rw [if_pos hall.1]
  · next hshort =>
    dsimp only
    split
    · next hn => exact (List.take_of_length_le (by omega)).symm
    · rfl

theorem taken_zero (rest : Str) : taken 0 rest = [] := by simp [taken]

/-- It is a beginning of them. -/
theorem taken_le (n : Nat) (rest : Str) : taken n rest <+: rest := by
  unfold taken
  split
  · exact List.take_prefix n rest
  · exact List.nil_prefix

theorem length_taken_le (n : Nat) (rest : Str) : (taken n rest).length ≤ n := by
  unfold taken
  split
  · exact List.length_take_le n rest
  · exact Nat.zero_le n

/-- The copy stays within the buffer if there is no body, or too long a one, or one that no
`streamsize` can tell, or less than a buffer full of it is there. -/
theorem inBounds_copiedBody_iff {max : Limit} {line s rest : Str} {old n p : Nat}
    (hn : announcedSize line old = .ok n) (hrest : s.drop p = rest) :
    InBounds (copiedBody max line old (.sound s p)) ↔
      n = 0 ∨ max.exceeded n = true ∨ 2 ^ 63 ≤ n ∨ min n rest.length < cbufsz := by
  rw [inBounds_iff]
  unfold copiedBody
  rw [hn]
  cases n with
  | zero => simp
  | succ n =>
    dsimp only
    split
    · next hmax => simp [hmax]
    · next hmax =>
      have hgot (got : Str) :
          (∀ b, some got = some b → b.length < cbufsz) ↔ got.length < cbufsz := by simp
      rw [hgot, IStream.read_sound_fst, hrest, taken]
      split
      · next hlt =>
        rw [List.length_take]
        constructor
        · exact fun h ↦ .inr (.inr (.inr h))
        · rintro (h | h | h | h)
          · cases h
          · exact absurd h hmax
          · exact absurd hlt (Nat.not_lt_of_le h)
          · exact h
      · next hge => exact iff_of_true (by decide) (.inr (.inr (.inl (Nat.le_of_not_lt hge))))

/-- What is copied when more has been read of a header block, if that completes it. -/
def leftover (maxLine maxBody : Limit) (inbuf : IStream) (hdrs : Hdrs) (old : Nat) : Option Str :=
  match parse maxLine inbuf hdrs with
  | .ok (true, inbuf, hdrs) => copiedBody maxBody (hdrs.hdr .contentLength) old inbuf
  | _ => none

theorem inBounds_leftover_iff {maxLine maxBody : Limit} {hdrs hdrs' : Hdrs} {s rest : Str}
    {old n p : Nat} (hp : p ≤ s.length) (ho : ¬ Overlong maxLine (s.drop p))
    (hdone : scan hdrs (s.drop p) = .done hdrs' rest)
    (hn : announcedSize (hdrs'.hdr .contentLength) old = .ok n) :
    InBounds (leftover maxLine maxBody (.sound s p) hdrs old) ↔
      n = 0 ∨ maxBody.exceeded n = true ∨ 2 ^ 63 ≤ n ∨ min n rest.length < cbufsz := by
  obtain ⟨p', -, hrest, hparse⟩ := parse_eq_scan hp hdrs ho
  rw [hdone] at hrest hparse
  unfold leftover
  rw [hparse]
  exact inBounds_copiedBody_iff hn hrest

/-- Without a limit no line is overlong. -/
theorem not_overlong_none (t : Str) : ¬ Overlong none t := by
  intro h
  induction h with
  | here t h => cases h
  | later l rest hl hne h ih => exact ih

/-- What a server work copies in a turn that reads headers. -/
def ServerWork.leftover {ω Ref : Type} (cfg : Settings) (w : ServerWork ω Ref) (a : Chances ω) :
    Option Str :=
  Filth.leftover cfg.maxLineLen cfg.maxReqBody (rduntil w.inbuf a.chunks) w.inhdrs w.inbodySz

/-- What a client work copies; there is no limit to the length of a response. -/
def ClientWork.leftover {ω : Type} (max : Limit) (w : ClientWork) (a : Chances ω) : Option Str :=
  Filth.leftover max none (rduntil w.inbuf a.chunks) w.inhdrs w.inbodySz

/-- A server work goes on with what it has copied. -/
private theorem ServerWork.readHdrs_of_leftover {ω Ref : Type} (W : World ω Ref) {cfg : Settings}
    {w : ServerWork ω Ref} {a : Chances ω} {got : Str} (hstop : a.readStop ≠ .failed)
    (h : w.leftover cfg a = some got) : ∃ v : ServerWork ω Ref, v.inbody = w.inbody ++ cstr got ∧
      w.readHdrs W cfg a = if v.inbodySz = 0 then v.dropdown W cfg a else v.readBody W cfg a := by
  unfold ServerWork.leftover Filth.leftover at h
  split at h
  · next inbuf hdrs hparse =>
    unfold copiedBody at h
    split at h
    · next n hn =>
      split at h
      · cases h
      · next hmax =>
        cases h
        refine ⟨{ w.parsed true inbuf hdrs with
          inbuf := (inbuf.read (n + 1)).2
          inbodySz := sizeSub (n + 1) (inbuf.read (n + 1)).1.length
          inbody := w.inbody ++ cstr (inbuf.read (n + 1)).1 }, rfl, ?_⟩
        have hn' : announcedSize ((w.parsed true inbuf hdrs).inhdrs.hdr .contentLength)
            (w.parsed true inbuf hdrs).inbodySz = .ok (n + 1) := hn
        unfold readHdrs
        dsimp only [inhdrs] at hparse ⊢
        rw [if_neg hstop, hparse]
        change readInbuf W cfg (w.parsed true inbuf hdrs) a = _
        unfold readInbuf
        rw [hn']
        exact if_neg hmax
    · cases h
  · cases h

/-- So does a client work. -/
private theorem ClientWork.readHdrs_of_leftover {ω : Type} {max : Limit} {w : ClientWork}
    {a : Chances ω} {got : Str} (hstop : a.readStop ≠ .failed) (h : w.leftover max a = some got) :
    (w.readHdrs max a).1.inbody = w.inbody ++ cstr got := by
  unfold ClientWork.leftover Filth.leftover at h
  split at h
  · next inbuf hdrs hparse =>
    unfold copiedBody at h
    split at h
    · next n hn =>
      split at h
      · cases h
      · cases h
        unfold readHdrs
        dsimp only
        rw [if_neg hstop, hparse]
        dsimp only
        rw [if_pos rfl, readInbuf, hn]
    · cases h
  · cases h

/-- The copies of a server and of a client, in the turn in which the headers get complete, stay
within the buffer if and only if there is no body, or one that is refused, or one so long that the
`streamsize` is negative, or less than a buffer full of it has arrived. -/
theorem copies_inBounds_iff {ω ω' Ref : Type} {cfg : Settings} {max : Limit}
    {w : ServerWork ω Ref} {a : Chances ω} {v : ClientWork} {b : Chances ω'}
    {s rest s' rest' : Str} {p n p' n' : Nat} {hdrs hdrs' : Hdrs}
    (hw : w.inbuf = .sound s p) (hp : p ≤ s.length)
    (ho : ¬ Overlong cfg.maxLineLen (s.drop p ++ received a.chunks))
    (hdone : scan w.inhdrs (s.drop p ++ received a.chunks) = .done hdrs rest)
    (hn : announcedSize (hdrs.hdr .contentLength) w.inbodySz = .ok n)
    (hv : v.inbuf = .sound s' p') (hp' : p' ≤ s'.length)
    (ho' : ¬ Overlong max (s'.drop p' ++ received b.chunks))
    (hdone' : scan v.inhdrs (s'.drop p' ++ received b.chunks) = .done hdrs' rest')
    (hn' : announcedSize (hdrs'.hdr .contentLength) v.inbodySz = .ok n') :
    (InBounds (w.leftover cfg a) ↔
      n = 0 ∨ cfg.maxReqBody.exceeded n = true ∨ 2 ^ 63 ≤ n ∨ min n rest.length < cbufsz) ∧
    (InBounds (v.leftover max b) ↔ n' = 0 ∨ 2 ^ 63 ≤ n' ∨ min n' rest'.length < cbufsz) := by
  have hlen {s t : Str} {p : Nat} (hp : p ≤ s.length) : p ≤ (s ++ t).length := by
    rw [List.length_append]
    omega
  unfold ServerWork.leftover ClientWork.leftover
  rw [hw, hv, rduntil_sound, rduntil_sound]
  rw [← List.drop_append_of_le_length hp] at ho hdone
  rw [← List.drop_append_of_le_length hp'] at ho' hdone'
  refine ⟨inBounds_leftover_iff (hlen hp) ho hdone hn, ?_⟩
  exact (inBounds_leftover_iff (hlen hp') ho' hdone' hn').trans (by simp [Limit.exceeded])

/-- A turn in which the socket brings chunks and then blocks. -/
def Chances.bringing (chunks : List Str) : Chances Unit :=
  { sizes := [], writeStop := .clear, chunks, readStop := .blocked, bodyChunks := []
    bodyStop := .blocked, resetWorld := (), world := () }

/-- A request with a body of three bytes arrives at once, and a response that announces `-1`. -/
theorem copies_inBounds_iff_three :
    let put := "PUT /a HTTP/1.1\r\nContent-Length: 3\r\n\r\nabc".toList
    let resp := "HTTP/1.1 200 OK\r\nContent-Length: -1\r\n\r\nabc".toList
    (InBounds ((ServerWork.new () : ServerWork Unit Unit).leftover .lax (.bringing [put])) ↔
      3 = 0 ∨ Settings.lax.maxReqBody.exceeded 3 = true ∨ 2 ^ 63 ≤ 3 ∨
        min 3 "abc".toList.length < cbufsz) ∧
    (InBounds ((ClientWork.new .empty [] true).leftover none (.bringing [resp])) ↔
      2 ^ 64 - 1 = 0 ∨ 2 ^ 63 ≤ 2 ^ 64 - 1 ∨ min (2 ^ 64 - 1) "abc".toList.length < cbufsz) := by
  have hdone (start len : Str) (hstart : '\r' ∉ start ∧ start ≠ []) (hlen : '\r' ∉ len ∧ len ≠ []) :
      scan .empty (start ++ '\r' :: '\n' :: (len ++ '\r' :: '\n' :: '\r' :: '\n' ::
        "abc".toList)) = .done ((Hdrs.empty.store start).store len) "abc".toList := by
    rw [scan_line _ hstart.1 hstart.2, scan_line _ hlen.1 hlen.2, scan_empty]
  have hput := hdone "PUT /a HTTP/1.1".toList "Content-Length: 3".toList (by decide) (by decide)
  have hresp := hdone "HTTP/1.1 200 OK".toList "Content-Length: -1".toList (by decide) (by decide)
  exact copies_inBounds_iff (w := (ServerWork.new () : ServerWork Unit Unit))
    (a := .bringing ["PUT /a HTTP/1.1\r\nContent-Length: 3\r\n\r\nabc".toList])
    (v := .new .empty [] true)
    (b := .bringing ["HTTP/1.1 200 OK\r\nContent-Length: -1\r\n\r\nabc".toList]) rfl
    (Nat.zero_le _) (not_overlong_none _) hput (by decide +kernel) rfl (Nat.zero_le _)
    (not_overlong_none _) hresp (by decide +kernel)

/-- A request whose body is a buffer full arrives at once: the NUL is put behind the buffer. -/
theorem not_inBounds_full : ¬ InBounds ((ServerWork.new () : ServerWork Unit Unit).leftover .lax
    (.bringing ["PUT /a HTTP/1.1\r\nContent-Length: 4096\r\n\r\n".toList,
      List.replicate 4095 'a', ['a']])) := by
  have hlen : (List.replicate 4095 'a').length = 4095 := List.length_replicate
  have hnul : '\x00' ∉ List.replicate 4095 'a' :=
    fun h ↦ absurd (List.eq_of_mem_replicate h) (by decide)
  generalize List.replicate 4095 'a' = body at hlen hnul
  have hbody : [] ++ received ["PUT /a HTTP/1.1\r\nContent-Length: 4096\r\n\r\n".toList, body,
      ['a']] = "PUT /a HTTP/1.1".toList ++ '\r' :: '\n' ::
        ("Content-Length: 4096".toList ++ '\r' :: '\n' :: '\r' :: '\n' :: (body ++ ['a'])) := by
    simp only [received, List.map_cons, List.map_nil, cstr_eq_self hnul]
    rfl
  have hdone : scan .empty ("PUT /a HTTP/1.1".toList ++ '\r' :: '\n' ::
        ("Content-Length: 4096".toList ++ '\r' :: '\n' :: '\r' :: '\n' :: (body ++ ['a']))) =
      .done ((Hdrs.empty.store "PUT /a HTTP/1.1".toList).store "Content-Length: 4096".toList)
        (body ++ ['a']) := by
    rw [scan_line _ (by decide) (by decide), scan_line _ (by decide) (by decide), scan_empty]
  unfold ServerWork.leftover
  rw [show (ServerWork.new () : ServerWork Unit Unit).inbuf = .sound [] 0 from rfl]
  dsimp only [Chances.bringing]
  rw [rduntil_sound, hbody]
  change ¬ InBounds (leftover none none (.sound _ 0) .empty 0)
  rw [inBounds_leftover_iff (n := 4096) (Nat.zero_le _) (not_overlong_none _) hdone
    (by decide +kernel)]
  simp [Limit.exceeded, cbufsz, hlen]

end Filth
