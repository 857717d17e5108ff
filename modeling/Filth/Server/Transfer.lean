import Filth.Server.Origin

/-!
# Moving files

The loops of `HTTP_Origin_Server::request` and `putorpost` that move a file into memory and out
of it, `src/HTTP_Origin_Server.cpp:70–103` and `113–181`. How far they get is decided by the
results of `fread_unlocked` and `fwrite_unlocked`, which are a parameter; fuel bounds the rounds
that are looked at.
-/

namespace Filth

open Base

/-- What a call of `fread_unlocked` or `fwrite_unlocked` does: how much it moves, at most what it
is asked for, and whether it sets the error indicator. -/
structure Transfer where
  count : Nat
  failed : Bool

/-- How much the first calls move. -/
def moved (calls : Nat → Transfer) (k : Nat) : Nat := ∑ m ∈ Finset.range k, (calls m).count

/-- The calls move that much in the end. -/
def MovesAll (calls : Nat → Transfer) (n : Nat) : Prop := ∃ k, n ≤ moved calls k

/-- A call fails that is made while there is something left of that much. -/
def Fails (calls : Nat → Transfer) (n : Nat) : Prop :=
  ∃ m, moved calls m < n ∧ (calls m).failed = true

section Loop

variable {σ : Type} (move : Nat → σ → σ)

/-- `while (toread)` and `while (towrite)`: move on by what is moved, and go on, also if that is
nothing. What is left to do when the loop ends is the error indicator and the pointer. -/
def transferLoop : Nat → (Nat → Transfer) → Nat → Bool → σ → Option (Bool × σ)
  | 0, _, _, _, _ => none
  | fuel + 1, calls, left, err, s =>
    if left = 0 then some (err, s)
    else
      let n := min (calls 0).count left
      transferLoop fuel (fun m ↦ calls (m + 1)) (left - n) (err || (calls 0).failed) (move n s)

private theorem moved_succ (calls : Nat → Transfer) (k : Nat) :
    moved calls (k + 1) = (calls 0).count + moved (fun m ↦ calls (m + 1)) k := by
  rw [moved, Finset.sum_range_succ', Nat.add_comm]
  rfl

private theorem movesAll_zero (calls : Nat → Transfer) : MovesAll calls 0 := ⟨0, Nat.zero_le _⟩

/-- One call, and then the others. -/
private theorem movesAll_iff_tail (calls : Nat → Transfer) (n : Nat) : MovesAll calls n ↔
    MovesAll (fun m ↦ calls (m + 1)) (n - min (calls 0).count n) := by
  constructor
  · rintro ⟨k, hk⟩
    cases k with
    | zero =>
      rw [moved, Finset.range_zero, Finset.sum_empty] at hk
      exact ⟨0, by omega⟩
    | succ k =>
      rw [moved_succ] at hk
      exact ⟨k, by omega⟩
  · rintro ⟨k, hk⟩
    exact ⟨k + 1, by rw [moved_succ]; omega⟩

private theorem fails_iff_tail (calls : Nat → Transfer) {n : Nat} (hn : n ≠ 0) : Fails calls n ↔
    (calls 0).failed = true ∨ Fails (fun m ↦ calls (m + 1)) (n - min (calls 0).count n) := by
  constructor
  · rintro ⟨m, hm, hfail⟩
    cases m with
    | zero => exact .inl hfail
    | succ m =>
      rw [moved_succ] at hm
      exact .inr ⟨m, by omega, hfail⟩
  · rintro (hfail | ⟨m, hm, hfail⟩)
    · exact ⟨0, by rw [moved, Finset.range_zero, Finset.sum_empty]; omega, hfail⟩
    · exact ⟨m + 1, by rw [moved_succ]; omega, hfail⟩

private theorem not_fails_zero (calls : Nat → Transfer) : ¬ Fails calls 0 := by
  rintro ⟨m, hm, -⟩
  exact absurd hm (Nat.not_lt_zero _)

/-- The loop ends if and only if the calls move all there is. -/
theorem transferLoop_ends_iff (calls : Nat → Transfer) (left : Nat) (err : Bool) (s : σ) :
    (∃ fuel r, transferLoop move fuel calls left err s = some r) ↔ MovesAll calls left := by
  constructor
  · rintro ⟨fuel, r, h⟩
    induction fuel generalizing calls left err s with
    | zero => cases h
    | succ fuel ih =>
      rw [transferLoop] at h
      split at h
      · next hleft => exact hleft ▸ movesAll_zero calls
      · exact (movesAll_iff_tail calls left).mpr (ih _ _ _ _ h)
  · rintro ⟨k, hk⟩
    induction k generalizing calls left err s with
    | zero =>
      have hleft : left = 0 := by
        rw [moved, Finset.range_zero, Finset.sum_empty] at hk
        omega
      exact ⟨1, (err, s), if_pos hleft⟩
    | succ k ih =>
      by_cases hleft : left = 0
      · exact ⟨1, (err, s), if_pos hleft⟩
      · rw [moved_succ] at hk
        obtain ⟨fuel, r, h⟩ := ih (fun m ↦ calls (m + 1)) (left - min (calls 0).count left)
          (err || (calls 0).failed) (move (min (calls 0).count left) s) (by omega)
        exact ⟨fuel + 1, r, by rw [transferLoop, if_neg hleft]; exact h⟩

/-- Where the loop ends, the indicator tells whether a call has failed, and everything has been
moved. -/
theorem transferLoop_eq_some (hzero : ∀ s, move 0 s = s)
    (hadd : ∀ a b s, move b (move a s) = move (a + b) s) {fuel : Nat} {calls : Nat → Transfer}
    {left : Nat} {err err' : Bool} {s s' : σ}
    (h : transferLoop move fuel calls left err s = some (err', s')) :
    MovesAll calls left ∧ (err' = true ↔ err = true ∨ Fails calls left) ∧ s' = move left s := by
  refine ⟨(transferLoop_ends_iff move calls left err s).mp ⟨fuel, _, h⟩, ?_⟩
  induction fuel generalizing calls left err s with
  | zero => cases h
  | succ fuel ih =>
    rw [transferLoop] at h
    split at h
    · next hleft =>
      cases h
      subst hleft
      simp [not_fails_zero, hzero]
    · next hleft =>
      obtain ⟨herr, hs⟩ := ih h
      refine ⟨?_, ?_⟩
      · rw [herr, fails_iff_tail calls hleft, Bool.or_eq_true, or_assoc]
      · rw [hs, hadd]
        congr 1
        omega

end Loop

/-- What the calls of one attempt of `request` return, and whether the process survives it if
`free` is called with a pointer that `malloc` has not returned. -/
structure ReadAttempt where
  stat : Except Errno FileStat
  fopen : Option Errno
  ftrylockfile : Bool
  malloc : Bool
  calls : Nat → Transfer
  survives : Bool

/-- Up to the loop, `src/HTTP_Origin_Server.cpp:114–158`: an error number, or how much there is to
read. -/
def ReadAttempt.opening (a : ReadAttempt) : Except Errno Nat :=
  match a.stat with
  | .error e => .error e
  | .ok st =>
    if st.kind = .dir then .error .eisdir
    else if st.kind = .sock then .error .espipe
    else if st.kind ≠ .reg then .error .eacces
    else match a.fopen with
      | some e => .error e
      | none =>
        if !a.ftrylockfile then .error .eacces
        else if !a.malloc then .error .enomem
        else .ok st.size

/-- How the reading ends: in an error number, with so much read, or not at all. -/
inductive FileRead where
  | failed (err : Errno)
  | read (n : Nat)
  | died
  deriving DecidableEq, Repr

/-- `request_tryagain`, `src/HTTP_Origin_Server.cpp:113–181`: read the file, again if the stream has
an error. What has been read by then is freed through the pointer that has moved; if it has, the
behaviour is undefined, and the process survives that or does not. What follows has no loops. -/
def readFile : Nat → (Nat → ReadAttempt) → Option FileRead
  | 0, _ => none
  | fuel + 1, attempts =>
    match (attempts 0).opening with
    | .error e => some (.failed e)
    | .ok size =>
      match transferLoop (· + ·) fuel (attempts 0).calls size false 0 with
      | none => none
      | some (true, off) =>
        if off ≠ 0 && !(attempts 0).survives then some .died
        else readFile fuel fun j ↦ attempts (j + 1)
      | some (false, n) => some (.read n)

namespace ReadAttempt

/-- The attempt reads all there is, meets an error, and is survived: another one follows. -/
def Retries (a : ReadAttempt) : Prop :=
  a.survives = true ∧ ∃ size, a.opening = .ok size ∧ MovesAll a.calls size ∧ Fails a.calls size

/-- The attempt is the last one: it is refused, or reads all there is without an error. -/
def Ends (a : ReadAttempt) : Prop :=
  (∃ e, a.opening = .error e) ∨
    ∃ size, a.opening = .ok size ∧ MovesAll a.calls size ∧ ¬ Fails a.calls size

end ReadAttempt

/-- The reading comes to an end, and what is no error is a whole file. -/
def ReadEnds (attempts : Nat → ReadAttempt) : Prop :=
  ∃ fuel r, readFile fuel attempts = some r ∧ r ≠ .died ∧
    ∀ n, r = .read n → ∃ j, (attempts j).opening = .ok n ∧ MovesAll (attempts j).calls n

/-- Finitely many attempts read everything, meet an error and are survived, and one more is the
last. -/
def ReadsOn (attempts : Nat → ReadAttempt) : Prop :=
  ∃ j, (∀ i < j, (attempts i).Retries) ∧ (attempts j).Ends

/-- One attempt, and then the others. -/
private theorem readsOn_iff_tail (attempts : Nat → ReadAttempt) : ReadsOn attempts ↔
    (attempts 0).Ends ∨ (attempts 0).Retries ∧ ReadsOn fun j ↦ attempts (j + 1) := by
  constructor
  · rintro ⟨j, hbefore, hend⟩
    cases j with
    | zero => exact .inl hend
    | succ j =>
      exact .inr ⟨hbefore 0 (Nat.succ_pos j), j, fun i hi ↦ hbefore (i + 1) (by omega), hend⟩
  · rintro (hend | ⟨hfirst, j, hbefore, hend⟩)
    · exact ⟨0, nofun, hend⟩
    · refine ⟨j + 1, fun i hi ↦ ?_, hend⟩
      cases i with
      | zero => exact hfirst
      | succ i => exact hbefore i (by omega)

/-- What the loop of an attempt gives. -/
theorem readLoop_eq_some {fuel size n : Nat} {calls : Nat → Transfer} {err : Bool}
    (h : transferLoop (· + ·) fuel calls size false 0 = some (err, n)) :
    MovesAll calls size ∧ (err = true ↔ Fails calls size) ∧ n = size := by
  obtain ⟨hall, herr, hn⟩ := transferLoop_eq_some (· + ·) (fun s ↦ Nat.zero_add s)
    (fun a b s ↦ by omega) h
  exact ⟨hall, by simpa using herr, hn⟩

/-- An error is met only while there is something to read. -/
private theorem Fails.ne_zero {calls : Nat → Transfer} {n : Nat} (h : Fails calls n) : n ≠ 0 := by
  rintro rfl
  exact not_fails_zero calls h

/-- A reading that has ended has read on to its last attempt. -/
theorem readsOn_of_readFile {fuel : Nat} {attempts : Nat → ReadAttempt} {r : FileRead}
    (h : readFile fuel attempts = some r) (hr : r ≠ .died) : ReadsOn attempts ∧
      ∀ n, r = .read n → ∃ j, (attempts j).opening = .ok n ∧ MovesAll (attempts j).calls n := by
  induction fuel generalizing attempts with
  | zero => cases h
  | succ fuel ih =>
    rw [readsOn_iff_tail]
    unfold readFile at h
    cases hopen : (attempts 0).opening with
    | error e =>
      rw [hopen] at h
      cases h
      exact ⟨.inl (.inl ⟨e, hopen⟩), nofun⟩
    | ok size =>
      rw [hopen] at h
      dsimp only at h
      cases hloop : transferLoop (· + ·) fuel (attempts 0).calls size false 0 with
      | none =>
        rw [hloop] at h
        cases h
      | some p =>
        obtain ⟨err, n⟩ := p
        rw [hloop] at h
        obtain ⟨hall, herr, rfl⟩ := readLoop_eq_some hloop
        cases err with
        | true =>
          dsimp only at h
          split at h
          · cases h
            exact absurd rfl hr
          · next hfree =>
            have hfails := herr.mp rfl
            have hsurvives : (attempts 0).survives = true := by
              simpa [hfails.ne_zero] using hfree
            obtain ⟨hrest, hwhole⟩ := ih h
            refine ⟨.inr ⟨⟨hsurvives, _, hopen, hall, hfails⟩, hrest⟩, fun n hn ↦ ?_⟩
            obtain ⟨j, hj⟩ := hwhole n hn
            exact ⟨j + 1, hj⟩
        | false =>
          cases h
          refine ⟨.inl (.inr ⟨_, hopen, hall, fun hf ↦ ?_⟩), fun n hn ↦ ?_⟩
          · cases herr.mpr hf
          · cases hn
            exact ⟨0, hopen, hall⟩

/-- More fuel changes nothing. -/
theorem transferLoop_mono {σ : Type} {move : Nat → σ → σ} {fuel fuel' : Nat} (hle : fuel ≤ fuel')
    {calls : Nat → Transfer} {left : Nat} {err : Bool} {s : σ} {r : Bool × σ}
    (h : transferLoop move fuel calls left err s = some r) :
    transferLoop move fuel' calls left err s = some r := by
  induction fuel generalizing fuel' calls left err s with
  | zero => cases h
  | succ fuel ih =>
    obtain ⟨fuel', rfl⟩ := Nat.exists_eq_succ_of_ne_zero (by omega : fuel' ≠ 0)
    rw [transferLoop] at h ⊢
    split at h
    · next hleft => rw [if_pos hleft, h]
    · next hleft =>
      rw [if_neg hleft]
      exact ih (by omega) h

private theorem readFile_mono {fuel fuel' : Nat} (hle : fuel ≤ fuel') {attempts : Nat → ReadAttempt}
    {r : FileRead} (h : readFile fuel attempts = some r) :
    readFile fuel' attempts = some r := by
  induction fuel generalizing fuel' attempts with
  | zero => cases h
  | succ fuel ih =>
    obtain ⟨fuel', rfl⟩ := Nat.exists_eq_succ_of_ne_zero (by omega : fuel' ≠ 0)
    unfold readFile at h ⊢
    cases hopen : (attempts 0).opening with
    | error e =>
      rw [hopen] at h
      exact h
    | ok size =>
      rw [hopen] at h
      dsimp only at h ⊢
      cases hloop : transferLoop (· + ·) fuel (attempts 0).calls size false 0 with
      | none =>
        rw [hloop] at h
        cases h
      | some p =>
        rw [hloop] at h
        rw [transferLoop_mono (by omega) hloop]
        obtain ⟨err, n⟩ := p
        cases err with
        | true =>
          dsimp only at h ⊢
          split at h
          · next hfree => rw [if_pos hfree, h]
          · next hfree =>
            rw [if_neg hfree]
            exact ih (by omega) h
        | false => exact h

/-- An attempt that reads all there is, and whether it meets an error. -/
theorem readLoop_of_movesAll {size : Nat} {calls : Nat → Transfer} (h : MovesAll calls size) :
    ∃ fuel err, transferLoop (· + ·) fuel calls size false 0 = some (err, size) ∧
      (err = true ↔ Fails calls size) := by
  obtain ⟨fuel, ⟨err, n⟩, hloop⟩ := (transferLoop_ends_iff (· + ·) calls size false 0).mpr h
  obtain ⟨-, herr, rfl⟩ := readLoop_eq_some hloop
  exact ⟨fuel, err, hloop, herr⟩

/-- Reading on to a last attempt ends the reading. -/
private theorem readFile_of_readsOn {attempts : Nat → ReadAttempt} (h : ReadsOn attempts) :
    ∃ fuel r, readFile fuel attempts = some r ∧ r ≠ .died := by
  obtain ⟨j, hbefore, hend⟩ := h
  induction j generalizing attempts with
  | zero =>
    rcases hend with ⟨e, hopen⟩ | ⟨size, hopen, hall, hfails⟩
    · exact ⟨1, .failed e, by rw [readFile, hopen], nofun⟩
    · obtain ⟨fuel, err, hloop, herr⟩ := readLoop_of_movesAll hall
      obtain rfl : err = false := by rwa [← Bool.not_eq_true, herr]
      exact ⟨fuel + 1, .read size, by rw [readFile, hopen]; dsimp only; rw [hloop], nofun⟩
  | succ j ih =>
    obtain ⟨hsurvives, size, hopen, hall, hfails⟩ := hbefore 0 (Nat.succ_pos j)
    obtain ⟨fuel, err, hloop, herr⟩ := readLoop_of_movesAll hall
    obtain rfl : err = true := herr.mpr hfails
    have hrest : ∀ i < j, (attempts (i + 1)).Retries := fun i hi ↦ hbefore (i + 1) (by omega)
    obtain ⟨fuel', r, hr, hlives⟩ := ih hrest hend
    refine ⟨max fuel fuel' + 1, r, ?_, hlives⟩
    rw [readFile, hopen]
    dsimp only
    rw [transferLoop_mono (Nat.le_max_left fuel fuel') hloop]
    dsimp only
    rw [if_neg (by simp [hsurvives])]
    exact readFile_mono (Nat.le_max_right fuel fuel') hr

/-- The reading ends if and only if it gets to a last attempt. -/
private theorem readEnds_iff (attempts : Nat → ReadAttempt) :
    ReadEnds attempts ↔ ReadsOn attempts := by
  constructor
  · rintro ⟨fuel, r, h, hlives, -⟩
    exact (readsOn_of_readFile h hlives).1
  · intro h
    obtain ⟨fuel, r, hr, hlives⟩ := readFile_of_readsOn h
    exact ⟨fuel, r, hr, hlives, (readsOn_of_readFile hr hlives).2⟩

/-! ## Writing -/

/-- What the calls of one attempt of `putorpost` return. -/
structure WriteAttempt where
  fopen : Option Errno
  ftrylockfile : Bool
  calls : Nat → Transfer

/-- How far the pointer to what is written has moved, and what the file holds. -/
structure Writing where
  off : Nat
  file : Str

/-- Write the next `n` bytes of `bytes`. -/
def Writing.write (bytes : Str) (n : Nat) (s : Writing) : Writing :=
  { off := s.off + n, file := s.file ++ (bytes.drop s.off).take n }

/-- How a call of `putorpost` ends: it returns 0 or an error number, or not at all. -/
inductive PutResult where
  | returned (err : Option Errno)
  | died
  deriving DecidableEq, Repr

/-- The way out, `src/HTTP_Origin_Server.cpp:99–103`. What was decompressed is deleted through the
pointer that has moved; if it has, the behaviour is undefined, and the process survives that or does
not. -/
def Writing.release (coded survives : Bool) (s : Writing) (err : Option Errno) : PutResult × Str :=
  (if coded && s.off ≠ 0 && !survives then .died else .returned err, s.file)

/-- Where there is an error number, 0 is not returned. -/
@[simp] theorem Writing.release_ne (coded survives : Bool) (s : Writing) (e : Errno) :
    (s.release coded survives (some e)).1 ≠ .returned none := by
  unfold Writing.release
  dsimp only
  split <;> simp

/-- `put_tryagain`, `src/HTTP_Origin_Server.cpp:70–98`: the file is opened again, but the pointer
and the count stay where they are. -/
def writeFile (truncates coded survives : Bool) (bytes : Str) :
    Nat → (Nat → WriteAttempt) → Nat → Writing → Option (PutResult × Str)
  | 0, _, _, _ => none
  | fuel + 1, attempts, towrite, s =>
    match (attempts 0).fopen with
    | some e => some (s.release coded survives (some e))
    | none =>
      let s := if truncates then { s with file := [] } else s
      if !(attempts 0).ftrylockfile then some (s.release coded survives (some .eacces))
      else match transferLoop (Writing.write bytes) fuel (attempts 0).calls towrite false s with
        | none => none
        | some (true, s) =>
          writeFile truncates coded survives bytes fuel (fun j ↦ attempts (j + 1)) 0 s
        | some (false, s) => some (s.release coded survives none)

/-- What is written of the contents, by their coding. -/
def putContents (uncompress : Str → Option Str) (contents : Str) : ContentCoding → Except Errno Str
  | .identity => .ok contents
  | .gzip =>
    match uncompress contents with
    | some bytes => .ok bytes
    | none => .error .enomem
  | _ => .error .enotsup

/-- What surrounds a call of `putorpost`: `stat`, zlib, what becomes of undefined behaviour, and
the calls of each attempt. -/
structure PutCalls where
  stat : Except Errno FileKind
  uncompress : Str → Option Str
  survives : Bool
  attempts : Nat → WriteAttempt

/-- `HTTP_Origin_Server::putorpost` on what the file holds, `src/HTTP_Origin_Server.cpp:35–104`. -/
def putorpost (calls : PutCalls) (contents : Str) (enc : ContentCoding) (append : Bool)
    (fuel : Nat) (file : Str) : Option (PutResult × Str) :=
  match calls.stat with
  | .error e => some (.returned (some e), file)
  | .ok kind =>
    if kind = .sock then some (.returned (some .espipe), file)
    else if kind ≠ .reg then some (.returned (some .eacces), file)
    else match putContents calls.uncompress contents enc with
      | .error e => some (.returned (some e), file)
      | .ok bytes =>
        writeFile (!append) (enc ≠ .identity) calls.survives bytes fuel calls.attempts bytes.length
          { off := 0, file }

section Writing

variable {truncates coded survives : Bool} {bytes : Str} {attempts : Nat → WriteAttempt}
  {fuel towrite : Nat} {s : Writing} {r : PutResult × Str}

/-- What opening a file for writing does to it. -/
def Writing.opened (truncates : Bool) (s : Writing) : Writing :=
  if truncates then { s with file := [] } else s

/-- What the second attempt makes of the first one, which has left nothing to write. -/
def Writing.reopened (truncates coded survives : Bool) (a : WriteAttempt) (s : Writing) :
    PutResult × Str :=
  match a.fopen with
  | some e => s.release coded survives (some e)
  | none =>
    (s.opened truncates).release coded survives (if a.ftrylockfile then none else some .eacces)

private theorem write_zero (bytes : Str) (s : Writing) : s.write bytes 0 = s := by
  simp [Writing.write]

private theorem write_write (bytes : Str) (a b : Nat) (s : Writing) :
    (s.write bytes a).write bytes b = s.write bytes (a + b) := by
  simp [Writing.write, Nat.add_assoc, List.take_add, List.drop_drop]

/-- What the loop of an attempt gives. -/
private theorem writeLoop_eq_some {calls : Nat → Transfer} {err : Bool} {s' : Writing}
    (h : transferLoop (Writing.write bytes) fuel calls towrite false s = some (err, s')) :
    MovesAll calls towrite ∧ (err = true ↔ Fails calls towrite) ∧ s' = s.write bytes towrite := by
  obtain ⟨hall, herr, hs⟩ :=
    transferLoop_eq_some (Writing.write bytes) (write_zero bytes) (write_write bytes) h
  exact ⟨hall, by simpa using herr, hs⟩

private theorem writeFile_succ : writeFile truncates coded survives bytes
    (fuel + 1) attempts towrite s =
    match (attempts 0).fopen with
    | some e => some (s.release coded survives (some e))
    | none =>
      if !(attempts 0).ftrylockfile then
        some ((s.opened truncates).release coded survives (some .eacces))
      else match transferLoop (Writing.write bytes) fuel (attempts 0).calls towrite false
          (s.opened truncates) with
        | none => none
        | some (true, s) =>
          writeFile truncates coded survives bytes fuel (fun j ↦ attempts (j + 1)) 0 s
        | some (false, s) => some (s.release coded survives none) := rfl

/-- An attempt with nothing to write. -/
private theorem writeFile_zero
    (h : writeFile truncates coded survives bytes fuel attempts 0 s = some r) :
    r = s.reopened truncates coded survives (attempts 0) := by
  cases fuel with
  | zero => cases h
  | succ fuel =>
    rw [writeFile_succ] at h
    unfold Writing.reopened
    cases hopen : (attempts 0).fopen with
    | some e =>
      rw [hopen] at h
      exact (Option.some.inj h).symm
    | none =>
      rw [hopen] at h
      dsimp only at h ⊢
      cases hlock : (attempts 0).ftrylockfile with
      | false =>
        rw [hlock] at h
        exact (Option.some.inj h).symm
      | true =>
        rw [hlock] at h
        cases fuel with
        | zero => cases h
        | succ fuel => exact (Option.some.inj h).symm

private theorem writeFile_zero_ends : writeFile truncates coded survives bytes
    (fuel + 2) attempts 0 s =
    some (s.reopened truncates coded survives (attempts 0)) := by
  rw [writeFile_succ, Writing.reopened]
  cases (attempts 0).fopen with
  | some e => rfl
  | none => cases (attempts 0).ftrylockfile <;> rfl

/-- How the writing goes on once the file is open and locked. -/
theorem writeFile_open (hopen : (attempts 0).fopen = none)
    (hlock : (attempts 0).ftrylockfile = true)
    (h : writeFile truncates coded survives bytes fuel attempts towrite s = some r) :
    MovesAll (attempts 0).calls towrite ∧
      (Fails (attempts 0).calls towrite → r = ((s.opened truncates).write bytes towrite).reopened
        truncates coded survives (attempts 1)) ∧
      (¬ Fails (attempts 0).calls towrite →
        r = ((s.opened truncates).write bytes towrite).release coded survives none) := by
  cases fuel with
  | zero => cases h
  | succ fuel =>
    rw [writeFile_succ, hopen, hlock] at h
    dsimp only [Bool.not_true, Bool.false_eq_true, if_false] at h
    cases hloop : transferLoop (Writing.write bytes) fuel (attempts 0).calls towrite false
        (s.opened truncates) with
    | none =>
      simp [hloop] at h
    | some p =>
      obtain ⟨err, s'⟩ := p
      obtain ⟨hall, herr, rfl⟩ := writeLoop_eq_some hloop
      simp only [hloop] at h
      refine ⟨hall, fun hfails ↦ ?_, fun hfails ↦ ?_⟩
      · rw [herr.mpr hfails] at h
        exact writeFile_zero h
      · rw [← herr, Bool.not_eq_true] at hfails
        rw [hfails] at h
        exact (Option.some.inj h).symm

/-- The writing of an open file ends if the calls write everything. -/
theorem writeFile_ends (hopen : (attempts 0).fopen = none)
    (hlock : (attempts 0).ftrylockfile = true) (hall : MovesAll (attempts 0).calls towrite) :
    ∃ fuel r, writeFile truncates coded survives bytes fuel attempts towrite s = some r := by
  obtain ⟨fuel, ⟨err, s'⟩, hloop⟩ := (transferLoop_ends_iff (Writing.write bytes) (attempts 0).calls
    towrite false (s.opened truncates)).mpr hall
  have hloop' := transferLoop_mono (Nat.le_add_right fuel 2) hloop
  cases err with
  | false =>
    refine ⟨fuel + 3, s'.release coded survives none, ?_⟩
    rw [writeFile_succ, hopen, hlock]
    simp [hloop']
  | true =>
    refine ⟨fuel + 3, s'.reopened truncates coded survives (attempts 1), ?_⟩
    rw [writeFile_succ, hopen, hlock]
    simp [hloop', writeFile_zero_ends]

end Writing

/-! ## What comes of it -/

variable (calls : PutCalls) (contents : Str) (enc : ContentCoding) (append : Bool) (file : Str)

/-- The file is written exactly or not at all: after 0 it holds what was put or posted, after an
error what it held before. -/
def WritesExactly : Prop :=
  ∀ fuel err file', putorpost calls contents enc append fuel file = some (.returned err, file') →
    (err = none → ∃ bytes, putContents calls.uncompress contents enc = .ok bytes ∧
      file' = if append then file ++ bytes else bytes) ∧
    (err ≠ none → file' = file)

/-- A failed attempt to write `bytes` is made up for: the process dies of what it deletes, or the
second attempt fails as well, and truncation has restored the file by chance, or it succeeds and
has nothing to truncate. -/
def MadeUpFor (bytes : Str) : Prop :=
  (enc ≠ .identity ∧ calls.survives = false) ∨
  ((calls.attempts 1).fopen ≠ none ∧ append = false ∧ bytes = file) ∨
  ((calls.attempts 1).fopen = none ∧ (calls.attempts 1).ftrylockfile = false ∧
    append = false ∧ file = []) ∨
  ((calls.attempts 1).fopen = none ∧ (calls.attempts 1).ftrylockfile = true ∧ append = true)

/-- Nothing goes wrong once the file has been opened: it can be locked, or had nothing to
truncate, and no call fails before everything is written, or that is made up for. -/
def WritesSafely : Prop :=
  ∀ bytes, calls.stat = .ok .reg → putContents calls.uncompress contents enc = .ok bytes →
    (calls.attempts 0).fopen = none →
    ((calls.attempts 0).ftrylockfile = false → append = true ∨ file = []) ∧
    ((calls.attempts 0).ftrylockfile = true → MovesAll (calls.attempts 0).calls bytes.length →
      Fails (calls.attempts 0).calls bytes.length → MadeUpFor calls enc append file bytes)

/-- What `putorpost` does with a regular file whose new contents are known. -/
theorem putorpost_reg {bytes : Str} (hstat : calls.stat = .ok .reg)
    (hbytes : putContents calls.uncompress contents enc = .ok bytes) (fuel : Nat) :
    putorpost calls contents enc append fuel file =
      writeFile (!append) (enc ≠ .identity) calls.survives bytes fuel calls.attempts bytes.length
        { off := 0, file } := by
  simp [putorpost, hstat, hbytes]

/-- What a result promises about the file. -/
def ExactResult (bytes : Str) (r : PutResult × Str) : Prop :=
  ∀ err, r.1 = .returned err →
    (err = none → r.2 = if append then file ++ bytes else bytes) ∧ (err ≠ none → r.2 = file)

private theorem exactResult_release_iff {coded survives : Bool} (bytes : Str) (s : Writing)
    (err : Option Errno) : ExactResult append file bytes (s.release coded survives err) ↔
      (coded = true ∧ s.off ≠ 0 ∧ survives = false) ∨
      (err = none ∧ s.file = if append then file ++ bytes else bytes) ∨
      (err ≠ none ∧ s.file = file) := by
  by_cases hdies : coded = true ∧ s.off ≠ 0 ∧ survives = false
  · have hdied : (s.release coded survives err).1 = .died := by
      simp [Writing.release, hdies]
    refine iff_of_true (fun err' h ↦ ?_) (.inl hdies)
    rw [hdied] at h
    cases h
  · have hreturned : (s.release coded survives err).1 = .returned err := by
      unfold Writing.release
      rw [if_neg]
      simpa [and_assoc] using hdies
    have hfile : (s.release coded survives err).2 = s.file := rfl
    simp only [ExactResult, hreturned, hfile, hdies, false_or, PutResult.returned.injEq]
    cases err <;> simp

/-- What has been written after an attempt that failed is exact only if it is made up for. -/
theorem exactResult_reopened_iff {bytes : Str} (hbytes : bytes ≠ []) :
    ExactResult append file bytes
      ((((Writing.opened (!append) { off := 0, file }).write bytes bytes.length).reopened
        (!append) (enc ≠ .identity) calls.survives (calls.attempts 1))) ↔
      MadeUpFor calls enc append file bytes := by
  unfold Writing.reopened MadeUpFor
  have hlen : bytes.length ≠ 0 := by simpa using hbytes
  cases hopen : (calls.attempts 1).fopen with
  | some e =>
    rw [exactResult_release_iff]
    cases append <;> simp [Writing.opened, Writing.write, hlen, hbytes]
  | none =>
    dsimp only
    rw [exactResult_release_iff]
    cases append <;> cases hlock : (calls.attempts 1).ftrylockfile <;>
      simp [Writing.opened, Writing.write, hlen, hbytes]

/-- What is no regular file, or has contents that are not known, is refused and left as it is. -/
theorem putorpost_refused (h : ¬ (calls.stat = .ok .reg ∧
      ∃ bytes, putContents calls.uncompress contents enc = .ok bytes)) :
    ∃ e, ∀ fuel, putorpost calls contents enc append fuel file =
      some (.returned (some e), file) := by
  unfold putorpost
  cases hstat : calls.stat with
  | error e => exact ⟨e, fun _ ↦ rfl⟩
  | ok kind =>
    cases kind with
    | sock => exact ⟨.espipe, fun _ ↦ rfl⟩
    | reg =>
      cases hbytes : putContents calls.uncompress contents enc with
      | error e => exact ⟨e, fun _ ↦ rfl⟩
      | ok bytes => exact absurd ⟨hstat, bytes, hbytes⟩ h
    | _ => exact ⟨.eacces, fun _ ↦ rfl⟩

/-- The result of a safe attempt on a regular file. -/
private theorem exactResult_of_writesSafely {bytes : Str}
    (hsafe : WritesSafely calls contents enc append file)
    (hstat : calls.stat = .ok .reg) (hbytes : putContents calls.uncompress contents enc = .ok bytes)
    {fuel : Nat} {r : PutResult × Str}
    (hr : putorpost calls contents enc append fuel file = some r) :
    ExactResult append file bytes r := by
  rw [putorpost_reg calls contents enc append file hstat hbytes] at hr
  have hsafe := hsafe bytes hstat hbytes
  cases hopen : (calls.attempts 0).fopen with
  | some e =>
    cases fuel with
    | zero => cases hr
    | succ fuel =>
      rw [writeFile_succ, hopen] at hr
      cases hr
      rw [exactResult_release_iff]
      simp
  | none =>
    cases hlock : (calls.attempts 0).ftrylockfile with
    | false =>
      cases fuel with
      | zero => cases hr
      | succ fuel =>
        rw [writeFile_succ, hopen, hlock] at hr
        cases hr
        rw [exactResult_release_iff]
        rcases (hsafe hopen).1 hlock with rfl | rfl <;> simp [Writing.opened]
    | true =>
      obtain ⟨hall, hfail, hdone⟩ := writeFile_open hopen hlock hr
      by_cases hfails : Fails (calls.attempts 0).calls bytes.length
      · have hne : bytes ≠ [] := by
          rintro rfl
          exact not_fails_zero _ hfails
        rw [hfail hfails, exactResult_reopened_iff calls enc append file hne]
        exact (hsafe hopen).2 hlock hall hfails
      · rw [hdone hfails, exactResult_release_iff]
        cases append <;> simp [Writing.opened, Writing.write]

/-- A file is written exactly or not at all if and only if it is written safely. -/
theorem writesExactly_iff : WritesExactly calls contents enc append file ↔
    WritesSafely calls contents enc append file := by
  constructor
  · intro h bytes hstat hbytes hopen
    have hreg := putorpost_reg calls contents enc append file hstat hbytes
    refine ⟨fun hlock ↦ ?_, fun hlock hall hfails ↦ ?_⟩
    · have hres : putorpost calls contents enc append 1 file =
          some (.returned (some .eacces), if append then file else []) := by
        rw [hreg, writeFile_succ, hopen, hlock]
        cases append <;> simp [Writing.opened, Writing.release]
      have hfile := (h 1 _ _ hres).2 nofun
      cases append with
      | true => exact .inl rfl
      | false => exact .inr hfile.symm
    · have hne : bytes ≠ [] := by
        rintro rfl
        exact not_fails_zero _ hfails
      obtain ⟨fuel, r, hr⟩ : ∃ fuel r, writeFile (!append) (enc ≠ .identity) calls.survives bytes
          fuel calls.attempts bytes.length { off := 0, file } = some r :=
        writeFile_ends hopen hlock hall
      rw [← exactResult_reopened_iff calls enc append file hne,
        ← (writeFile_open hopen hlock hr).2.1 hfails]
      intro err herr
      obtain ⟨hok, herror⟩ := h fuel err r.2 (by rw [hreg, hr, ← herr])
      refine ⟨fun hnone ↦ ?_, herror⟩
      obtain ⟨bytes', hbytes', hfile⟩ := hok hnone
      obtain rfl : bytes' = bytes := by simpa [hbytes] using hbytes'.symm
      exact hfile
  · intro h fuel err file' hres
    by_cases hreg : calls.stat = .ok .reg ∧
        ∃ bytes, putContents calls.uncompress contents enc = .ok bytes
    · obtain ⟨hstat, bytes, hbytes⟩ := hreg
      obtain ⟨hok, herror⟩ :=
        exactResult_of_writesSafely calls contents enc append file h hstat hbytes hres err rfl
      exact ⟨fun hnone ↦ ⟨bytes, hbytes, hok hnone⟩, herror⟩
    · obtain ⟨e, hall⟩ := putorpost_refused calls contents enc append file hreg
      rw [hall fuel] at hres
      cases hres
      exact ⟨nofun, fun _ ↦ rfl⟩

/-- The calls around a `PUT` of three bytes, the first of which is written in a call that fails. -/
def PutCalls.interrupted : PutCalls where
  stat := .ok .reg
  uncompress _ := none
  survives := true
  attempts _ :=
    { fopen := none, ftrylockfile := true,
      calls := fun m ↦ if m = 0 then ⟨1, true⟩ else ⟨2, false⟩ }

/-- The second attempt truncates the file, writes nothing and reports success. -/
theorem not_writesExactly_interrupted :
    ¬ WritesExactly .interrupted "new".toList .identity false "old".toList := by
  intro h
  obtain ⟨bytes, hbytes, hfile⟩ := (h 5 none [] rfl).1 rfl
  cases hbytes
  exact absurd hfile (by decide)

/-- The writing comes to an end, and after 0 everything has been written. -/
def PutEnds : Prop :=
  ∃ fuel r, putorpost calls contents enc append fuel file = some r ∧ r.1 ≠ .died ∧
    (r.1 = .returned none → ∃ bytes, putContents calls.uncompress contents enc = .ok bytes ∧
      MovesAll (calls.attempts 0).calls bytes.length)

/-- If the first attempt gets to its loop, the calls write everything, and if that was something to
be decompressed, the process survives its deletion. -/
def PutsOn : Prop :=
  ∀ bytes, calls.stat = .ok .reg → putContents calls.uncompress contents enc = .ok bytes →
    (calls.attempts 0).fopen = none → (calls.attempts 0).ftrylockfile = true →
    MovesAll (calls.attempts 0).calls bytes.length ∧
      (enc = .identity ∨ bytes = [] ∨ calls.survives = true)

/-- The pointer has moved by what has been written. -/
theorem release_ne_died_iff {coded survives : Bool} (s : Writing) (err : Option Errno) :
    (s.release coded survives err).1 ≠ .died ↔ coded = false ∨ s.off = 0 ∨ survives = true := by
  unfold Writing.release
  cases coded <;> cases survives <;> by_cases hoff : s.off = 0 <;> simp [hoff]

/-- A call that has got to its loop and writes everything dies of what it deletes, or not. -/
theorem writeFile_ne_died_iff {truncates coded survives : Bool} {bytes : Str}
    {attempts : Nat → WriteAttempt} {fuel : Nat} {r : PutResult × Str}
    (hopen : (attempts 0).fopen = none) (hlock : (attempts 0).ftrylockfile = true)
    (h : writeFile truncates coded survives bytes fuel attempts bytes.length { off := 0, file } =
      some r) : r.1 ≠ .died ↔ coded = false ∨ bytes = [] ∨ survives = true := by
  have hoff (s : Writing) (hs : s.off = bytes.length) (err : Option Errno) :
      (s.release coded survives err).1 ≠ .died ↔ coded = false ∨ bytes = [] ∨ survives = true := by
    rw [release_ne_died_iff, hs, List.length_eq_zero_iff]
  have hwritten : ((Writing.opened truncates { off := 0, file }).write bytes bytes.length).off =
      bytes.length := by
    unfold Writing.opened Writing.write
    cases truncates <;> simp
  obtain ⟨-, hfail, hdone⟩ := writeFile_open hopen hlock h
  by_cases hfails : Fails (attempts 0).calls bytes.length
  · rw [hfail hfails]
    unfold Writing.reopened
    cases (attempts 1).fopen with
    | some e => exact hoff _ hwritten _
    | none =>
      refine hoff _ ?_ _
      unfold Writing.opened
      cases truncates <;> exact hwritten
  · rw [hdone hfails]
    exact hoff _ hwritten _

private theorem putEnds_iff :
    PutEnds calls contents enc append file ↔ PutsOn calls contents enc := by
  constructor
  · rintro ⟨fuel, r, hr, hlives, -⟩ bytes hstat hbytes hopen hlock
    rw [putorpost_reg calls contents enc append file hstat hbytes] at hr
    refine ⟨(writeFile_open hopen hlock hr).1, ?_⟩
    simpa using (writeFile_ne_died_iff file hopen hlock hr).mp hlives
  · intro h
    by_cases hreg : calls.stat = .ok .reg ∧
        ∃ bytes, putContents calls.uncompress contents enc = .ok bytes
    · obtain ⟨hstat, bytes, hbytes⟩ := hreg
      unfold PutEnds
      simp only [putorpost_reg calls contents enc append file hstat hbytes]
      cases hopen : (calls.attempts 0).fopen with
      | some e =>
        exact ⟨1, _, by rw [writeFile_succ, hopen], by simp [Writing.release],
          fun hr ↦ absurd hr (by simp)⟩
      | none =>
        cases hlock : (calls.attempts 0).ftrylockfile with
        | false =>
          refine ⟨1, _, by rw [writeFile_succ, hopen, hlock]; rfl, ?_, fun hr ↦ absurd hr (by simp)⟩
          rw [release_ne_died_iff]
          right
          left
          unfold Writing.opened
          cases append <;> rfl
        | true =>
          obtain ⟨hall, hsurvives⟩ := h bytes hstat hbytes hopen hlock
          obtain ⟨fuel, r, hr⟩ := writeFile_ends hopen hlock hall
          refine ⟨fuel, r, hr, ?_, fun _ ↦ ⟨bytes, hbytes, hall⟩⟩
          rw [writeFile_ne_died_iff file hopen hlock hr]
          simpa using hsurvives
    · obtain ⟨e, hall⟩ := putorpost_refused calls contents enc append file hreg
      exact ⟨0, _, hall 0, nofun, nofun⟩

/-- Both transfers end if and only if the calls get them done, or a call outside of the loops
fails, and no pointer that has moved is freed or deleted, or that is survived. -/
theorem transfers_end_iff (attempts : Nat → ReadAttempt) : (ReadEnds attempts ↔ ReadsOn attempts) ∧
    (PutEnds calls contents enc append file ↔ PutsOn calls contents enc) :=
  ⟨readEnds_iff attempts, putEnds_iff calls contents enc append file⟩

/-- A file that has got shorter by a byte after `stat` is read for ever. -/
theorem not_readEnds_short : ¬ ReadEnds fun _ ↦
    { stat := .ok ⟨.reg, 1, 0⟩, fopen := none, ftrylockfile := true, malloc := true
      calls := fun _ ↦ ⟨0, false⟩, survives := true } := by
  rintro ⟨fuel, r, h, hlives, -⟩
  obtain ⟨⟨j, -, hend⟩, -⟩ := readsOn_of_readFile h hlives
  rcases hend with ⟨e, hopen⟩ | ⟨size, hopen, ⟨k, hk⟩, -⟩
  · cases hopen
  · cases hopen
    simp [moved] at hk

end Filth
