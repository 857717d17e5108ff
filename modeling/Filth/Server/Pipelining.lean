import Filth.Http.Printing
import Filth.Server.Closing
import Filth.Server.Walk

/-!
# Pipelined requests

Requests without a body whose text is already in the input buffer. However the responses are
cut up when they are written, the requests are answered one after the other, and the stream
stands behind the last of them in the end.
-/

namespace Filth

open Base WorkM

variable {ω Ref : Type} (W : World ω Ref) (cfg : Settings)

/-- A complete request without a body, within the limits, that does not ask for the connection
to be closed and does not name a socket. -/
structure Plain (lines : List Str) : Prop where
  line : ∀ l ∈ lines, l ≠ [] ∧ '\r' ∉ l
  short : ∀ l ∈ lines, cfg.maxLineLen.exceeded l.length = false
  bodiless : (hdrsOf lines).bodySize = 0
  quiet : Client.asksClose ((hdrsOf lines).hdr .connection) = false
  file : ¬ NamesSocket W ((hdrsOf lines).path cfg.toConfig)

theorem steady_awake : Steady W fun s : Scene ω Ref ↦ s.nosch = false where
  minor h _ := h
  setC h _ := h
  setUncompressed h _ := h
  setCached h _ := h
  setRefs h _ := h

/-- A work that is to be rescheduled stays so whatever the world does. -/
theorem route_awake : Route W (fun s : Scene ω Ref ↦ s.nosch = false) fun _ s ↦ s.nosch = false where
  steady := steady_awake W
  entry _ := steady_awake W
  yielding _ _ _ h _ := h
  found h _ := ⟨h, h⟩
  missed h _ := h
  unget h := h
  read h _ := h
  unread h _ := h
  listed h _ := h
  unlisted h _ := h
  putorpost h := h
  unlink h := h

/-- An answer from an entry is an answer. -/
theorem ensures_answer_some (r : Ref) : (answer W r).Ensures (fun s ↦ s.nosch = false)
    (fun o s ↦ o.isSome = true ∧ s.nosch = false) fun s ↦ s.nosch = false := by
  have hpush (f : CacheEntry → CacheEntry) :
      (push W r f).Keeps fun s : Scene ω Ref ↦ s.nosch = false := .modify fun _ h ↦ h
  have hprint (body : Str) : Eff.Ensures (fun s ↦ s.nosch = false)
      (do return some { hdrs := ← printEntry W r, body : Response })
      (fun o s ↦ o.isSome = true ∧ s.nosch = false) fun s ↦ s.nosch = false :=
    .bind (.bind (keeps_gets _) fun _ ↦ .bind (hpush _) fun _ ↦ .pure fun _ h ↦ h) fun _ ↦
      .pure fun _ h ↦ ⟨rfl, h⟩
  have hfail : Eff.Ensures (fun s ↦ s.nosch = false) (do
      Eff.modify fun s : Scene ω Ref ↦ { s with uncompressed := none }
      throw .internalServerError : WorkM ω Ref (Option Response))
      (fun o s ↦ o.isSome = true ∧ s.nosch = false) fun s ↦ s.nosch = false :=
    .bind (.modify (Q := fun _ s ↦ s.nosch = false) fun _ h ↦ h) fun _ ↦ .throw fun _ h ↦ h
  refine .bind (keeps_gets _) fun _ ↦ .ite (fun _ ↦ .bind (hpush _) fun _ ↦ hprint _) fun _ ↦ ?_
  refine .bind (keeps_gets _) fun _ ↦ .ite (fun _ ↦ .bind (keeps_gets _) fun _ ↦ hprint _) fun _ ↦ ?_
  refine .ite (fun _ ↦ .bind (keeps_gets _) fun n ↦ ?_) fun _ ↦ hprint _
  refine .bind (keeps_call W (steady_awake W) (.malloc n)) fun _ ↦ .ite (fun _ ↦ hfail) fun _ ↦ ?_
  apply Eff.Ensures.bind (keeps_gets _)
  intro body
  cases body with
  | none => exact hfail
  | some body =>
    refine .bind (.modify (Q := fun _ s ↦ s.nosch = false) fun _ h ↦ h) fun _ ↦ ?_
    exact .bind (hpush _) fun _ ↦ hprint _

/-- A request that does not name a socket has a response at once. -/
private theorem respond_some {cfg : Config} {s : Scene ω Ref} (body : Str)
    (hsock : ¬ NamesSocket W (s.client.reqHdrs.path cfg)) (hs : s.nosch = false) :
    ∃ r s', respond W cfg body s = (.ok (some r), s') ∧ s'.nosch = false := by
  have hoops (e : Status) : Eff.Ensures (fun s : Scene ω Ref ↦ s.nosch = false)
      (do return some (← onOops W e)) (fun o s ↦ o.isSome = true ∧ s.nosch = false)
      fun s ↦ s.nosch = false :=
    .bind (keeps_onOops W (steady_awake W) e) fun _ ↦ .pure fun _ h ↦ ⟨rfl, h⟩
  have hsome {x : WorkM ω Ref (Option Response)} {t : Scene ω Ref} (ht : t.nosch = false)
      (hx : x.Ensures (fun s ↦ s.nosch = false) (fun o s ↦ o.isSome = true ∧ s.nosch = false)
        fun s ↦ s.nosch = false) (heq : respond W cfg body s = x t) :
      ∃ r s', respond W cfg body s = (.ok (some r), s') ∧ s'.nosch = false := by
    obtain ⟨o, s', ho⟩ := respond_ok W cfg body s
    obtain ⟨hsome, hn⟩ := (hx t ht).1 o s' (by rw [← heq, ho])
    obtain ⟨r, rfl⟩ := Option.isSome_iff_exists.mp hsome
    exact ⟨r, s', ho, hn⟩
  have heq := respond_eq W cfg body s
  cases hb : Client.browseReq cfg s.client with
  | mk r w =>
    rw [hb] at heq
    cases r with
    | error e => exact hsome (t := { s with client := w }) hs (hoops e) heq
    | ok u =>
      rw [← (Client.meth_path_of_browseReq hb).2] at hsock
      exact hsome (t := { s with client := w }) hs (.tryCatch
        (ensures_dispatch W cfg (route_awake W) (fun _ h ↦ h) (fun _ _ h ↦ h)
          (fun h ↦ absurd h hsock) (ensures_answer_some W) w.meth) hoops) heq

namespace ServerWork

variable {W cfg} {w : ServerWork ω Ref} {a : Chances ω}

/-- A request that does not name a socket and does not ask for the connection to be closed leads
to a response. -/
theorem dropdown_of_plain (hsock : ¬ NamesSocket W (w.inhdrs.path cfg.toConfig))
    (hquiet : Client.asksClose (w.inhdrs.hdr .connection) = false) (hn : w.scene.nosch = false) :
    ∃ scene hdrs body, w.dropdown W cfg a =
        ({ w.report (.prepare w.inhdrs w.inbody) with scene }.setOut hdrs body, .rescheduled) ∧
      scene.nosch = false ∧ scene.client.deleteme = w.deleteme := by
  obtain ⟨r, scene, hr, hscene⟩ :=
    respond_some W w.inbody (s := { w.scene with world := a.world }) hsock hn
  have hclient := congrArg Prod.fst
    (serve_client W cfg.toConfig w.scene { hdrs := w.inhdrs, body := w.inbody, world := a.world })
  change (respond W cfg.toConfig w.inbody { w.scene with world := a.world }).2.client = _ at hclient
  rw [hr] at hclient
  refine ⟨scene, r.hdrs, r.body, by rw [dropdown]; simp only [report, inhdrs, hr], hscene, ?_⟩
  rw [hclient]
  exact (Client.browseReq_unasked (w := w.scene.client) cfg.toConfig hquiet).1

/-- A work that waits for a request, with `s` from position `p` on still to be read. -/
structure Fresh (w : ServerWork ω Ref) (s : Str) (p : Nat) : Prop where
  m : w.m = .read
  inbuf : w.inbuf = .sound s p
  le : p ≤ s.length
  inhdrs : w.inhdrs = .empty
  inhdrsDone : w.inhdrsDone = false
  inbody : w.inbody = []
  inbodySz : w.inbodySz = 0
  outhdrsDone : w.outhdrsDone = false
  nosch : w.scene.nosch = false
  deleteme : w.deleteme = false

/-- What has been reported of a request and its response, of which some bytes are written. -/
def started (hdrs : Hdrs) (h b : Str) (bytes : List Str) : List Deed :=
  [.parse, .prepare hdrs [], .setup h b] ++ bytes.map .write

/-- A work that writes the response to a request, whose end was at position `n`. -/
structure Writing (w : ServerWork ω Ref) (before : List Deed) (hdrs : Hdrs) (s : Str) (n : Nat) :
    Prop where
  m : w.m = .write
  inbuf : w.inbuf = .sound s n
  nosch : w.scene.nosch = false
  deleteme : w.deleteme = false
  progress : ∃ h b bytes, w.log = before ++ started hdrs h b bytes ∧
    bytes.flatten ++ w.out ++ (if w.outhdrsDone then [] else w.outbody) = h ++ b

/-- What is reported of a request and its response in the end: the headers, all bytes, and where
the stream stands. -/
def Exchange (s₀ : Str) (n : Nat) (hdrs : Hdrs) (log : List Deed) : Prop :=
  ∃ h b bytes s, log = started hdrs h b bytes ++ [.finish (.sound s n)] ∧
    bytes.flatten = h ++ b ∧ s₀ <+: s

/-- A request in the buffer is answered at once. -/
theorem readHdrs_of_plain {lines : List Str} {s rest : Str} {p : Nat} (hp : Plain W cfg lines)
    (hw : Fresh w s p) (htext : s.drop p = block lines ++ rest) (hstop : a.readStop ≠ .failed) :
    ∃ w', w.readHdrs W cfg a = (w', .rescheduled) ∧ w'.outhdrsDone = false ∧
      Writing w' w.log (hdrsOf lines) (s ++ received a.chunks) (p + (block lines).length) := by
  have hscan : scan w.inhdrs (s.drop p ++ received a.chunks) =
      .done (hdrsOf lines) (rest ++ received a.chunks) := by
    rw [hw.inhdrs, htext, List.append_assoc]
    exact scan_block hp.line .empty _
  have hshort : ¬ Overlong cfg.maxLineLen (s.drop p ++ received a.chunks) := by
    rw [htext, List.append_assoc]
    exact not_overlong_block hp.line hp.short _
  obtain ⟨q, hq, hrest, heq⟩ := readHdrs_eq W cfg hw.inbuf hw.le hstop hshort
  rw [hscan] at hrest heq
  have hpos : q = p + (block lines).length := by
    have hlen := congrArg List.length hrest
    have hlen' := congrArg List.length htext
    simp only [Outcome.rest, List.length_drop, List.length_append] at hlen hlen' hq
    have := hw.le
    omega
  subst hpos
  -- the headers announce no body, so the response is prepared at once
  have hstored : (hdrsOf lines).Stored := by
    have hstored := Hdrs.stored_empty.scan (block lines ++ [])
    rwa [scan_block hp.line] at hstored
  have hsize : announcedSize ((hdrsOf lines).hdr .contentLength) w.inbodySz = .ok 0 := by
    obtain ⟨n, hn⟩ := hstored.announcedSize 0
    have hzero := hp.bodiless
    rw [Hdrs.bodySize, hn] at hzero
    rw [hw.inbodySz, hn]
    exact congrArg Except.ok hzero
  obtain ⟨v, hv⟩ : ∃ v, v = w.parsed true
    (.sound (s ++ received a.chunks) (p + (block lines).length)) (hdrsOf lines) := ⟨_, rfl⟩
  have hdrop : w.readHdrs W cfg a = { v with inbodySz := 0 }.dropdown W cfg a := by
    rw [heq, hv]
    change readInbuf W cfg (w.parsed true _ (hdrsOf lines)) a = _
    exact readInbuf_of_zero W cfg hsize
  obtain ⟨scene, h, b, heq', hn, hdel⟩ := dropdown_of_plain (W := W) (w := { v with inbodySz := 0 })
    (a := a) (by rw [hv]; exact hp.file) (by rw [hv]; exact hp.quiet) (by rw [hv]; exact hw.nosch)
  refine ⟨_, hdrop.trans heq', by rw [hv]; exact hw.outhdrsDone, ?_⟩
  refine ⟨rfl, by rw [hv]; rfl, hn, hdel.trans (by rw [hv]; exact hw.deleteme), ?_⟩
  refine ⟨(cstr h).take (cbufsz - 1), b, [], ?_, ?_⟩
  · rw [hv]
    change w.log ++ [Deed.parse] ++ [Deed.prepare (hdrsOf lines) w.inbody] ++
      [Deed.setup ((cstr h).take (cbufsz - 1)) b] = _
    rw [hw.inbody]
    simp [started]
  · rw [hv]
    change [] ++ _ ++ (if w.outhdrsDone then [] else b) = _
    rw [hw.outhdrsDone]
    rfl

variable (W cfg)

/-- A turn that does not get all bytes written goes on writing. -/
private theorem operator_of_partial {before : List Deed} {hdrs : Hdrs} {s : Str} {n : Nat}
    (hw : Writing w before hdrs s n) (hstop : a.writeStop = .blocked)
    (hleft : (wruntil w.out a.sizes).2 ≠ []) : ∃ w', w.operator W cfg a = (w', .rescheduled) ∧
      w'.outhdrsDone = w.outhdrsDone ∧ Writing w' before hdrs s n := by
  obtain ⟨h, b, bytes, hlog, hbytes⟩ := hw.progress
  have hop : w.operator W cfg a = ({ w with
      out := (wruntil w.out a.sizes).2
      log := w.log ++ [.write (wruntil w.out a.sizes).1] }, .rescheduled) := by
    unfold operator writeOut
    rw [hw.m]
    dsimp only
    rw [if_pos hleft, if_pos hstop]
  refine ⟨_, hop, rfl, hw.m, hw.inbuf, hw.nosch, hw.deleteme,
    h, b, bytes ++ [(wruntil w.out a.sizes).1], ?_, ?_⟩
  · simp [hlog, started]
  · rw [List.flatten_append, ← hbytes]
    simp only [List.flatten_cons, List.flatten_nil, List.append_nil, List.append_assoc]
    rw [← List.append_assoc _ (wruntil w.out a.sizes).2, wruntil_append]

/-- A turn that writes the last of the headers goes on with the body. -/
private theorem operator_of_headers {before : List Deed} {hdrs : Hdrs} {s : Str} {n : Nat}
    (hw : Writing w before hdrs s n) (hleft : (wruntil w.out a.sizes).2 = [])
    (hdone : w.outhdrsDone = false) : ∃ w', w.operator W cfg a = (w', .rescheduled) ∧
      w'.outhdrsDone = true ∧ Writing w' before hdrs s n := by
  obtain ⟨h, b, bytes, hlog, hbytes⟩ := hw.progress
  have hop : w.operator W cfg a = ({ w with
      out := w.outbody, outhdrsDone := true
      log := w.log ++ [.write (wruntil w.out a.sizes).1] }, .rescheduled) := by
    unfold operator writeOut
    rw [hw.m]
    simp [hleft, hdone]
  refine ⟨_, hop, rfl, hw.m, hw.inbuf, hw.nosch, hw.deleteme,
    h, b, bytes ++ [(wruntil w.out a.sizes).1], ?_, ?_⟩
  · simp [hlog, started]
  · have hout := wruntil_append w.out a.sizes
    rw [hleft, List.append_nil] at hout
    rw [List.flatten_append, ← hbytes, hout, hdone]
    simp

/-- A turn that writes the last of the body completes the exchange. -/
private theorem operator_of_body {before : List Deed} {hdrs : Hdrs} {s₀ s : Str} {n : Nat}
    (hw : Writing w before hdrs s n) (hs : s₀ <+: s) (hleft : (wruntil w.out a.sizes).2 = [])
    (hdone : w.outhdrsDone = true) : w.operator W cfg a = (w.finished a).keepAlive W cfg a ∧
      ∃ log, (w.finished a).log = before ++ log ∧ Exchange s₀ n hdrs log := by
  obtain ⟨h, b, bytes, hlog, hbytes⟩ := hw.progress
  have hf : w.finishes a = true := by
    simp [finishes, hw.m, hleft, hdone, hw.nosch]
  have hout := wruntil_append w.out a.sizes
  rw [hleft, List.append_nil] at hout
  rw [hdone] at hbytes
  constructor
  · have hop : w.operator W cfg a = w.writeOut W cfg a := by
      unfold operator
      rw [hw.m]
    rw [hop, writeOut_of_finishes W cfg hf, hw.deleteme]
    rfl
  · refine ⟨started hdrs h b (bytes ++ [w.out]) ++ [Deed.finish w.inbuf], ?_, h, b,
      bytes ++ [w.out], s, by rw [hw.inbuf], by simpa using hbytes, hs⟩
    change w.log ++ [Deed.write (wruntil w.out a.sizes).1, Deed.finish w.inbuf] = _
    rw [hlog, hout]
    simp [started]

/-- After a response the work waits for the next request. -/
private theorem fresh_refreshed {s : Str} {n : Nat} (hin : w.inbuf = .sound s n) (hn : n ≤ s.length)
    (hsch : w.scene.nosch = false) (hdel : w.deleteme = false) : Fresh (w.refreshed W a) s n :=
  ⟨rfl, hin, hn, rfl, rfl, rfl, rfl, rfl, hsch, hdel⟩

/-- With nothing to read, the work goes on waiting. -/
private theorem operator_of_nothing {s : Str} {q : Nat} (hw : Fresh w s q) (hq : s.drop q = [])
    (hstop : a.readStop ≠ .failed) (hnone : received a.chunks = []) :
    ∃ w' s' q', w.operator W cfg a = (w', .rescheduled) ∧ Fresh w' s' q' ∧ s'.drop q' = [] ∧
      w'.log = w.log ++ [Deed.parse] := by
  have hop : w.operator W cfg a = w.readHdrs W cfg a := by
    rw [operator, hw.m]
    dsimp only
    rw [hw.inhdrsDone]
    rfl
  have hscan : scan w.inhdrs (s.drop q ++ received a.chunks) = .more .empty [] := by
    rw [hw.inhdrs, hq, hnone]
    exact scan_piece .empty List.not_mem_nil
  have hshort : ¬ Overlong cfg.maxLineLen (s.drop q ++ received a.chunks) := by
    rw [hq, hnone, List.append_nil, overlong_piece cfg.maxLineLen List.not_mem_nil,
      List.length_nil, Limit.exceeded_zero]
    exact Bool.false_ne_true
  obtain ⟨q', hq', hrest, heq⟩ := readHdrs_eq W cfg hw.inbuf hw.le hstop hshort
  rw [hscan] at hrest heq
  refine ⟨_, _, q', hop.trans heq, ?_, hrest, rfl⟩
  exact ⟨hw.m, rfl, hq', rfl, rfl, hw.inbody, hw.inbodySz, hw.outhdrsDone, hw.nosch, hw.deleteme⟩

/-- With a character left, the next request is read in the same turn. -/
private theorem keepAlive_of_more {s : Str} {n : Nat} (hin : w.inbuf = .sound s n)
    (hmore : s.drop n ≠ []) :
    w.keepAlive W cfg a = (w.refreshed W a).readHdrs W cfg a := by
  obtain ⟨c, rest, hc⟩ := List.exists_cons_of_ne_nil hmore
  rw [keepAlive_eq, hin, IStream.ignore_sound hc]
  rfl

/-- With nothing left, the buffer is emptied. -/
private theorem keepAlive_of_nothing {s : Str} {n : Nat} (hin : w.inbuf = .sound s n)
    (hnone : s.drop n = []) :
    w.keepAlive W cfg a = ({ w.refreshed W a with inbuf := .new [] }, .rescheduled) := by
  have hg : w.inbuf.ignore.good = false := by
    rw [hin]
    simp only [IStream.ignore, IStream.good_sound, IStream.rest_sound, hnone, if_true]
    rfl
  rw [keepAlive_eq, hg]
  rfl

end ServerWork
/-- Where the first `i` requests end, if the first one starts at `p`. -/
def blockEnd (reqs : List (List Str)) (p i : Nat) : Nat :=
  p + ((reqs.take i).flatMap block).length

/-- Each log is that of the exchange in its place. -/
def InOrder (reqs : List (List Str)) (s₀ : Str) (p : Nat) (logs : List (List Deed)) : Prop :=
  ∀ i log lines, logs[i]? = some log → reqs[i]? = some lines →
    ServerWork.Exchange s₀ (blockEnd reqs p (i + 1)) (hdrsOf lines) log

/-- The log of an exchange that has not come to its end. -/
def InProgress (hdrs : Hdrs) (log : List Deed) : Prop :=
  log = [] ∨ ∃ h b bytes, log = ServerWork.started hdrs h b bytes ∧ bytes.flatten <+: h ++ b

/-- Neither reading nor writing fails. -/
def Chances.Smooth (a : Chances ω) : Prop := a.readStop ≠ .failed ∧ a.writeStop = .blocked

/-- The turn reads, or it writes all that is left of the buffer at hand. -/
def Conn.full : Conn ω Ref → Chances ω → Bool
  | .live w _, a => w.m = .read ∨ (wruntil w.out a.sizes).2 = []
  | _, _ => false

/-- How many turns of a run read, or write all that is left of the buffer at hand. -/
def fullTurns (M : Machine (Conn ω Ref) (Act ω)) : Conn ω Ref → List (Chances ω) → Nat
  | _, [] => 0
  | c, a :: as => (c.full a).toNat +
      match M.step c (.turn a) with
      | some c' => fullTurns M c' as
      | none => 0

/-- How far a connection has come with the exchanges when `logs` are complete and `rest` is the
log of what came after, after `f` full turns. -/
inductive Stage (reqs : List (List Str)) (s₀ : Str) (p : Nat) (silent : Prop)
    (logs : List (List Deed)) (rest : List Deed) (f : Nat) : Conn ω Ref → Prop
  | waiting (w : ServerWork ω Ref) (hw : w.Fresh s₀ p) (hlog : w.log = []) (hlogs : logs = [])
      (hrest : rest = []) (hf : f = 0) (hlt : logs.length < reqs.length) : Stage reqs s₀ p silent
      logs rest f (.live w true)
  | writing (w : ServerWork ω Ref) (lines : List Str) (s : Str)
      (hlines : reqs[logs.length]? = some lines)
      (hw : w.Writing logs.flatten (hdrsOf lines) s (blockEnd reqs p (logs.length + 1)))
      (hlog : w.log = logs.flatten ++ rest) (hs : s₀ <+: s) (hsilent : silent → s = s₀)
      (hf : f = 2 * logs.length + if w.outhdrsDone then 2 else 1) :
      Stage reqs s₀ p silent logs rest f (.live w true)
  | done (c : Conn ω Ref) (hlog : c.log = logs.flatten ++ rest)
      (hlen : logs.length = reqs.length)
      (hsilent : silent → (∀ d ∈ rest, d = .parse) ∧
        ∃ w s q, c = .live w true ∧ w.Fresh s q ∧ s.drop q = []) :
      Stage reqs s₀ p silent logs rest f c

variable {W cfg} {reqs : List (List Str)} {s₀ tail : Str} {p : Nat} {silent : Prop}

private theorem blockEnd_succ {lines : List Str} {i : Nat} (h : reqs[i]? = some lines) :
    blockEnd reqs p (i + 1) = blockEnd reqs p i + (block lines).length := by
  rw [blockEnd, blockEnd, List.take_add_one, h, Option.toList_some, List.flatMap_append,
    List.flatMap_singleton, List.length_append, Nat.add_assoc]

/-- What follows the first `i` requests. -/
theorem drop_blockEnd (h : s₀.drop p = reqs.flatMap block ++ tail) (i : Nat) :
    s₀.drop (blockEnd reqs p i) = (reqs.drop i).flatMap block ++ tail := by
  rw [blockEnd, ← List.drop_drop, h]
  conv_lhs => rw [← List.take_append_drop i reqs, List.flatMap_append, List.append_assoc]
  rw [List.take_append_drop, List.drop_left]

/-- What follows the first `i` requests begins with the next one. -/
theorem drop_blockEnd_of_get (h : s₀.drop p = reqs.flatMap block ++ tail) {lines : List Str}
    {i : Nat} (hi : reqs[i]? = some lines) : s₀.drop (blockEnd reqs p i) =
      block lines ++ ((reqs.drop (i + 1)).flatMap block ++ tail) := by
  obtain ⟨hlt, rfl⟩ := List.getElem?_eq_some_iff.mp hi
  rw [drop_blockEnd h, List.drop_eq_getElem_cons hlt, List.flatMap_cons, List.append_assoc]

theorem InOrder.concat {logs : List (List Deed)} (h : InOrder reqs s₀ p logs) {log : List Deed}
    {lines : List Str} (hlines : reqs[logs.length]? = some lines)
    (hlog : ServerWork.Exchange s₀ (blockEnd reqs p (logs.length + 1)) (hdrsOf lines) log) :
    InOrder reqs s₀ p (logs ++ [log]) := by
  intro i log' lines' hi hlines'
  rw [List.getElem?_append] at hi
  split at hi
  · exact h i log' lines' hi hlines'
  · next hle =>
    obtain ⟨hlt, rfl⟩ := List.getElem?_eq_some_iff.mp hi
    simp only [List.length_singleton] at hlt
    have heq : i = logs.length := by omega
    subst heq
    rw [hlines] at hlines'
    cases hlines'
    simpa using hlog

/-- A turn that has been rescheduled, of a work that is not to be deleted. -/
theorem step_of_rescheduled {w₀ w w' : ServerWork ω Ref} {a : Chances ω}
    (h : w.operator W cfg a = (w', .rescheduled)) (hdel : w'.deleteme = false) :
    (assemblyLine W cfg w₀).step (.live w true) (.turn a) = some (.live w' true) := by
  change some ((w.operator W cfg a).2.settle (w.operator W cfg a).1) = _
  rw [h, Ending.settle, hdel]
  rfl

/-- A turn of a connection adds to its log. -/
theorem log_step {w₀ : ServerWork ω Ref} {c c' : Conn ω Ref} {a : Chances ω}
    (h : (assemblyLine W cfg w₀).step c (.turn a) = some c') : c.log <+: c'.log := by
  rcases assemblyLine_step W cfg h with ⟨w, b, rfl, hb, rfl⟩ | ⟨_, _, _, _, _, _, hwake, _⟩
  · cases hb
    rw [Ending.log_settle]
    exact ServerWork.log_of_steps W cfg (ServerWork.steps_operator W cfg)
  · cases hwake

/-- The turn that completes an exchange goes on with the next request, if there is one. -/
private theorem stage_finish {w₀ w : ServerWork ω Ref} (hreqs : ∀ r ∈ reqs, Plain W cfg r)
    (htext : s₀.drop p = reqs.flatMap block ++ tail) {logs : List (List Deed)} {log : List Deed}
    {f : Nat} {c' : Conn ω Ref} {a : Chances ω} (hin : InOrder reqs s₀ p (logs ++ [log]))
    (hf : f = 2 * logs.length + 2) {lines : List Str} (hlines : reqs[logs.length]? = some lines)
    (hop : w.operator W cfg a = (w.finished a).keepAlive W cfg a)
    (hlog : (w.finished a).log = logs.flatten ++ log) {s : Str} {hdrs : Hdrs}
    (hw : w.Writing logs.flatten hdrs s (blockEnd reqs p (logs.length + 1)))
    (hs : s₀ <+: s) (hsame : silent → s = s₀) (ha : a.Smooth)
    (hsilent : silent → received a.chunks = [] ∧ tail = [])
    (hstep : (assemblyLine W cfg w₀).step (.live w true) (.turn a) = some c') :
    ∃ logs' rest', InOrder reqs s₀ p logs' ∧ Stage reqs s₀ p silent logs' rest' (f + 1) c' := by
  obtain ⟨more, rfl⟩ := hs
  have hend : blockEnd reqs p (logs.length + 1) ≤ s₀.length := by
    have hlen := congrArg List.length (drop_blockEnd_of_get htext hlines)
    have hpos := List.length_pos_of_ne_nil (block_ne_nil lines)
    rw [List.length_drop, List.length_append] at hlen
    rw [blockEnd_succ hlines]
    omega
  have hrest : (s₀ ++ more).drop (blockEnd reqs p (logs.length + 1)) =
      (reqs.drop (logs.length + 1)).flatMap block ++ (tail ++ more) := by
    rw [List.drop_append_of_le_length hend, drop_blockEnd htext, List.append_assoc]
  have hle : blockEnd reqs p (logs.length + 1) ≤ (s₀ ++ more).length := by
    rw [List.length_append]
    omega
  have hfresh : ServerWork.Fresh ((w.finished a).refreshed W a) (s₀ ++ more)
      (blockEnd reqs p (logs.length + 1)) :=
    ServerWork.fresh_refreshed W hw.inbuf hle hw.nosch hw.deleteme
  have hflat : (w.finished a).log = (logs ++ [log]).flatten := by
    rw [hlog, List.flatten_append, List.flatten_singleton]
  have hlen : (logs ++ [log]).length = logs.length + 1 := by simp
  cases hnext : reqs[logs.length + 1]? with
  | some lines' =>
    have hfront := drop_blockEnd_of_get htext hnext
    rw [drop_blockEnd htext] at hfront
    rw [← List.append_assoc, hfront, List.append_assoc] at hrest
    have hne : (s₀ ++ more).drop (blockEnd reqs p (logs.length + 1)) ≠ [] := by
      rw [hrest]
      exact List.append_ne_nil_of_left_ne_nil (block_ne_nil lines') _
    rw [ServerWork.keepAlive_of_more W cfg (w := w.finished a) hw.inbuf hne] at hop
    obtain ⟨w', hread, hdone, hwrite⟩ := ServerWork.readHdrs_of_plain
      (hreqs lines' (List.mem_of_getElem? hnext)) hfresh hrest ha.1
    rw [step_of_rescheduled (hop.trans hread) hwrite.deleteme] at hstep
    cases hstep
    have hbase : ((w.finished a).refreshed W a).log = (logs ++ [log]).flatten := hflat
    rw [hbase, ← blockEnd_succ hnext] at hwrite
    obtain ⟨h, b, bytes, hlog', -⟩ := hwrite.progress
    refine ⟨logs ++ [log], _, hin, .writing w' lines' _ (by rw [hlen]; exact hnext)
      (by rw [hlen]; exact hwrite) hlog' ?_ ?_ ?_⟩
    · exact (List.prefix_append _ _).trans (List.prefix_append _ _)
    · intro hsil
      rw [(hsilent hsil).1, hsame hsil, List.append_nil]
    · rw [hlen, hdone, hf]
      rfl
  | none =>
    have hdone : reqs.length = logs.length + 1 := by
      have hlt := (List.getElem?_eq_some_iff.mp hlines).1
      have hge := List.getElem?_eq_none_iff.mp hnext
      omega
    change some ((w.operator W cfg a).2.settle (w.operator W cfg a).1) = some c' at hstep
    rw [hop] at hstep
    obtain ⟨new, hnew⟩ := ServerWork.log_of_steps W cfg
      (ServerWork.steps_keepAlive W cfg (w := w.finished a) (a := a))
    have hc' : c'.log = (logs ++ [log]).flatten ++ new := by
      rw [← Option.some.inj hstep, Ending.log_settle, ← hnew, hflat]
    refine ⟨logs ++ [log], new, hin, .done c' hc' (by rw [hlen, hdone]) ?_⟩
    intro hsil
    have hmore : more = [] := by
      have hm := hsame hsil
      simpa using hm
    rw [hmore, (hsilent hsil).2, List.drop_eq_nil_of_le (Nat.le_of_eq hdone)] at hrest
    rw [ServerWork.keepAlive_of_nothing W cfg (w := w.finished a) (s := s₀ ++ more)
      (n := blockEnd reqs p (logs.length + 1)) hw.inbuf (by rw [hmore]; exact hrest)] at hstep hnew
    change (w.finished a).log ++ new = (w.finished a).log at hnew
    have hnil : new = [] := by simpa using hnew
    change some (if ((w.finished a).refreshed W a).deleteme then _ else _) = some c' at hstep
    rw [hfresh.deleteme] at hstep
    cases hstep
    refine ⟨by rw [hnil]; exact fun d hd ↦ absurd hd List.not_mem_nil, _, [], 0, rfl, ?_, rfl⟩
    exact { hfresh with inbuf := rfl, le := Nat.le_refl 0 }

/-- What one turn does to the stage. -/
private theorem stage_step {w₀ : ServerWork ω Ref} (hreqs : ∀ r ∈ reqs, Plain W cfg r)
    (htext : s₀.drop p = reqs.flatMap block ++ tail) {logs : List (List Deed)} {rest : List Deed}
    {f : Nat} {c c' : Conn ω Ref} (hin : InOrder reqs s₀ p logs)
    (hc : Stage reqs s₀ p silent logs rest f c) {a : Chances ω} (ha : a.Smooth)
    (hsilent : silent → received a.chunks = [] ∧ tail = [])
    (hstep : (assemblyLine W cfg w₀).step c (.turn a) = some c') :
    ∃ logs' rest', InOrder reqs s₀ p logs' ∧
      Stage reqs s₀ p silent logs' rest' (f + (c.full a).toNat) c' := by
  cases hc with
  | waiting w hw hlog hlogs hrest hf hlt =>
    subst hlogs hrest hf
    obtain ⟨lines, hlines⟩ : ∃ lines, reqs[0]? = some lines :=
      ⟨_, List.getElem?_eq_getElem hlt⟩
    have hfront := drop_blockEnd_of_get htext hlines
    have hstart : blockEnd reqs p 0 = p := rfl
    have hplain := hreqs lines (List.mem_of_getElem? hlines)
    rw [hstart] at hfront
    obtain ⟨w', hop, hdone, hwrite⟩ :=
      ServerWork.readHdrs_of_plain hplain hw hfront ha.1
    have hop' : w.operator W cfg a = (w', .rescheduled) := by
      rw [ServerWork.operator, hw.m]
      dsimp only
      rw [hw.inhdrsDone]
      exact hop
    rw [step_of_rescheduled hop' hwrite.deleteme] at hstep
    cases hstep
    rw [hlog, ← hstart, ← blockEnd_succ hlines] at hwrite
    refine ⟨[], w'.log, hin, .writing w' lines _ hlines hwrite rfl (List.prefix_append _ _) ?_ ?_⟩
    · intro hs
      rw [(hsilent hs).1, List.append_nil]
    · simp [Conn.full, hw.m, hdone]
  | writing w lines s hlines hw hlog hs hsame hf =>
    by_cases hleft : (wruntil w.out a.sizes).2 = []
    · have hfull : (Conn.live w true : Conn ω Ref).full a = true := by simp [Conn.full, hleft]
      rw [hfull]
      cases hdone : w.outhdrsDone with
      | false =>
        obtain ⟨w', hop, hdone', hw'⟩ :=
          ServerWork.operator_of_headers W cfg hw hleft hdone
        rw [step_of_rescheduled hop hw'.deleteme] at hstep
        cases hstep
        obtain ⟨h, b, bytes, hlog', -⟩ := hw'.progress
        refine ⟨logs, _, hin, .writing w' lines s hlines hw' hlog' hs hsame ?_⟩
        rw [hdone] at hf
        rw [hdone', hf]
        rfl
      | true =>
        obtain ⟨hop, log, hlog', hex⟩ :=
          ServerWork.operator_of_body W cfg hw hs hleft hdone
        have hin' := hin.concat hlines hex
        rw [hdone] at hf
        exact stage_finish hreqs htext hin' hf hlines hop hlog' hw hs hsame ha hsilent hstep
    · obtain ⟨w', hop, hdone, hw'⟩ :=
        ServerWork.operator_of_partial W cfg hw ha.2 hleft
      rw [step_of_rescheduled hop hw'.deleteme] at hstep
      cases hstep
      obtain ⟨h, b, bytes, hlog', -⟩ := hw'.progress
      refine ⟨logs, _, hin, .writing w' lines s hlines hw' hlog' hs hsame ?_⟩
      rw [hdone, hf]
      simp [Conn.full, hleft, hw.m]
  | done c hlog hlen hquiet =>
    obtain ⟨more, hmore⟩ := log_step hstep
    refine ⟨logs, rest ++ more, hin, .done c' ?_ hlen ?_⟩
    · rw [← hmore, hlog, List.append_assoc]
    · intro hs
      obtain ⟨hall, w, s, q, rfl, hw, hq⟩ := hquiet hs
      obtain ⟨w', s', q', hop, hw', hq', hlog'⟩ :=
        ServerWork.operator_of_nothing W cfg hw hq ha.1 (hsilent hs).1
      rw [step_of_rescheduled hop hw'.deleteme] at hstep
      cases hstep
      refine ⟨?_, w', s', q', rfl, hw', hq'⟩
      have hmore' : more = [.parse] := by
        change w.log ++ more = w'.log at hmore
        rw [hlog'] at hmore
        exact List.append_cancel_left hmore
      rw [hmore']
      intro d hd
      rcases List.mem_append.mp hd with hd | hd
      · exact hall d hd
      · exact List.mem_singleton.mp hd

/-- What a run of turns does to the stage. -/
private theorem stage_run {w₀ : ServerWork ω Ref} (hreqs : ∀ r ∈ reqs, Plain W cfg r)
    (htext : s₀.drop p = reqs.flatMap block ++ tail) {as : List (Chances ω)}
    (ha : ∀ a ∈ as, a.Smooth) (hsilent : silent → ∀ a ∈ as, received a.chunks = [])
    (htail : silent → tail = []) {logs : List (List Deed)} {rest : List Deed} {f : Nat}
    {c c' : Conn ω Ref} (hin : InOrder reqs s₀ p logs) (hc : Stage reqs s₀ p silent logs rest f c)
    (hrun : (assemblyLine W cfg w₀).run c (as.map .turn) = some c') :
    ∃ logs' rest', InOrder reqs s₀ p logs' ∧
      Stage reqs s₀ p silent logs' rest' (f + fullTurns (assemblyLine W cfg w₀) c as) c' := by
  induction as generalizing logs rest f c with
  | nil =>
    cases hrun
    exact ⟨logs, rest, hin, hc⟩
  | cons a as ih =>
    rw [List.map_cons, Machine.run_cons] at hrun
    obtain ⟨c₁, hstep, hrun⟩ := Option.bind_eq_some_iff.mp hrun
    obtain ⟨logs₁, rest₁, hin₁, hc₁⟩ := stage_step hreqs htext hin hc (ha a List.mem_cons_self)
      (fun hs ↦ ⟨hsilent hs a List.mem_cons_self, htail hs⟩) hstep
    rw [fullTurns, hstep, ← Nat.add_assoc]
    exact ih (fun b hb ↦ ha b (List.mem_cons_of_mem a hb))
      (fun hs b hb ↦ hsilent hs b (List.mem_cons_of_mem a hb)) hin₁ hc₁ hrun

/-- A connection whose input buffer holds a text, the beginning of which has been read. -/
def served (W : World ω Ref) (cfg : Settings) (world : ω) (before text : Str) :
    Machine (Conn ω Ref) (Act ω) :=
  assemblyLine W cfg { ServerWork.new world with inbuf := .sound (before ++ text) before.length }

/-- How far the answers to some requests have come: `logs` are the exchanges that are complete,
each of them before the next begins, and `rest` is the log of what came after. As long as there
is a request to be answered, the work is there and may be executed. -/
structure Answered (reqs : List (List Str)) (s₀ : Str) (p : Nat) (c : Conn ω Ref)
    (logs : List (List Deed)) (rest : List Deed) : Prop where
  log : c.log = logs.flatten ++ rest
  inOrder : InOrder reqs s₀ p logs
  le : logs.length ≤ reqs.length
  going : ∀ lines, reqs[logs.length]? = some lines →
    InProgress (hdrsOf lines) rest ∧ ∃ w, c = .live w true

/-- For every list of plain requests whose text stands in the buffer, and every run of smooth
turns, the requests are answered one after the other, and each answer leaves the stream behind
its request. Two full turns for each request and one more complete all answers. If nothing else
has been sent, no response is prepared after the last of them. -/
theorem pipelined_answered (hreqs : ∀ r ∈ reqs, Plain W cfg r) (world : ω) (before : Str)
    (as : List (Chances ω)) (ha : ∀ a ∈ as, a.Smooth) (c : Conn ω Ref)
    (hrun : (served W cfg world before (reqs.flatMap block ++ tail)).run
      (served W cfg world before (reqs.flatMap block ++ tail)).init (as.map .turn) = some c) :
    ∃ logs rest,
      Answered reqs (before ++ (reqs.flatMap block ++ tail)) before.length c logs rest ∧
      (2 * reqs.length < fullTurns (served W cfg world before (reqs.flatMap block ++ tail))
        (served W cfg world before (reqs.flatMap block ++ tail)).init as →
          logs.length = reqs.length) ∧
      (logs.length = reqs.length → tail = [] → (∀ a ∈ as, received a.chunks = []) →
        ∀ d ∈ rest, d = .parse) := by
  have htext : (before ++ (reqs.flatMap block ++ tail)).drop before.length =
      reqs.flatMap block ++ tail := List.drop_left
  obtain ⟨w₀, hw₀⟩ : ∃ w₀ : ServerWork ω Ref, w₀ = { ServerWork.new world with
      inbuf := .sound (before ++ (reqs.flatMap block ++ tail)) before.length } := ⟨_, rfl⟩
  have hfresh : w₀.Fresh (before ++ (reqs.flatMap block ++ tail)) before.length := by
    subst hw₀
    exact ⟨rfl, rfl, by simp, rfl, rfl, rfl, rfl, rfl, rfl, rfl⟩
  have hlog₀ : w₀.log = [] := by
    subst hw₀
    rfl
  have hinit : (assemblyLine W cfg w₀).init = .live w₀ true := rfl
  unfold served at hrun ⊢
  rw [← hw₀, hinit] at hrun ⊢
  obtain ⟨silent, hsil⟩ : ∃ silent : Prop, silent ↔
    tail = [] ∧ ∀ a ∈ as, received a.chunks = [] := ⟨_, Iff.rfl⟩
  have hstart : Stage reqs (before ++ (reqs.flatMap block ++ tail)) before.length silent [] [] 0
      (.live w₀ true) := by
    by_cases hnone : reqs = []
    · refine .done _ hlog₀ (by rw [hnone]; rfl) ?_
      intro hs
      refine ⟨fun d hd ↦ absurd hd List.not_mem_nil, w₀, _, _, rfl, hfresh, ?_⟩
      rw [htext, hnone, (hsil.mp hs).1]
      rfl
    · exact .waiting w₀ hfresh hlog₀ rfl rfl rfl (List.length_pos_of_ne_nil hnone)
  obtain ⟨logs, rest, hin, hc⟩ := stage_run hreqs htext ha (fun hs ↦ (hsil.mp hs).2)
    (fun hs ↦ (hsil.mp hs).1) (by intro i log lines hi; cases hi) hstart hrun
  rw [Nat.zero_add] at hc
  refine ⟨logs, rest, ?_⟩
  cases hc with
  | waiting w hw hlog hlogs hrest hf hlt =>
    subst hlogs hrest
    refine ⟨⟨hlog, hin, Nat.zero_le _, fun lines _ ↦ ⟨.inl rfl, w, rfl⟩⟩, fun h ↦ ?_, fun h ↦ ?_⟩
    · rw [hf] at h
      exact absurd h (Nat.not_lt_zero _)
    · exact absurd h (Nat.ne_of_lt hlt)
  | writing w lines s hlines hw hlog hs hsame hf =>
    have hlt := (List.getElem?_eq_some_iff.mp hlines).1
    refine ⟨⟨hlog, hin, Nat.le_of_lt hlt, fun lines' h' ↦ ⟨.inr ?_, w, rfl⟩⟩, fun h ↦ ?_, fun h ↦ ?_⟩
    · rw [hlines] at h'
      cases h'
      obtain ⟨h, b, bytes, hlog', hbytes⟩ := hw.progress
      refine ⟨h, b, bytes, ?_, ?_⟩
      · rw [hlog] at hlog'
        exact List.append_cancel_left hlog'
      · rw [← hbytes, List.append_assoc]
        exact List.prefix_append _ _
    · rw [hf] at h
      split at h <;> omega
    · exact absurd h (Nat.ne_of_lt hlt)
  | done c hlog hlen hquiet =>
    refine ⟨⟨hlog, hin, Nat.le_of_eq hlen, fun lines h ↦ ?_⟩, fun _ ↦ hlen, fun _ ht hnone ↦ ?_⟩
    · rw [hlen] at h
      exact absurd (List.getElem?_eq_some_iff.mp h).1 (Nat.lt_irrefl _)
    · exact (hquiet (hsil.mpr ⟨ht, hnone⟩)).1

/-- A turn in which everything is written, if there is so little of it. -/
def Chances.flush : Chances Unit := { Chances.arrival "" with sizes := [5000], writeStop := .blocked }

/-- Two requests, with a write that is cut short. -/
theorem pipelined_answered_two : ∃ logs rest, ∃ c : Conn Unit Unit, Answered
    [["GET /a HTTP/1.1".toList], ["GET /b HTTP/1.1".toList]]
    "GET /a HTTP/1.1\r\n\r\nGET /b HTTP/1.1\r\n\r\n".toList 0 c logs rest ∧ logs.length = 2 := by
  have hfile (path : Str) : ¬ NamesSocket (World.inert .blank) path := by
    rintro (⟨_, h⟩ | ⟨_, _, _, _, h⟩) <;> cases h
  have hplain : ∀ r ∈ [["GET /a HTTP/1.1".toList], ["GET /b HTTP/1.1".toList]],
      Plain (World.inert .blank) .lax r := by
    simp only [List.forall_mem_cons]
    exact ⟨⟨by decide, fun _ _ ↦ rfl, by decide, by decide, hfile _⟩,
      ⟨by decide, fun _ _ ↦ rfl, by decide, by decide, hfile _⟩, by simp⟩
  have has : ∀ a ∈ [.flush, { Chances.flush with sizes := [9] }, .flush, .flush, .flush, .flush],
      a.Smooth := by
    simp [Chances.Smooth, Chances.flush, Chances.arrival]
  have hrun : ((served (World.inert .blank) .lax () [] ([["GET /a HTTP/1.1".toList],
      ["GET /b HTTP/1.1".toList]].flatMap block ++ [])).run
      (served (World.inert .blank) .lax () [] ([["GET /a HTTP/1.1".toList],
        ["GET /b HTTP/1.1".toList]].flatMap block ++ [])).init
      ([.flush, { Chances.flush with sizes := [9] }, .flush, .flush, .flush, .flush].map
        .turn)).isSome = true := by decide +kernel
  obtain ⟨c, hc⟩ := Option.isSome_iff_exists.mp hrun
  obtain ⟨logs, rest, hans, hfull, -⟩ := pipelined_answered hplain () [] _ has c hc
  exact ⟨logs, rest, c, hans, hfull (by decide +kernel)⟩

end Filth
