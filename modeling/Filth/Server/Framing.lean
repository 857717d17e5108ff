import Filth.Server.Origin
import Filth.Server.Turns
import Filth.Server.Walk

/-!
# How responses are framed

Whatever becomes of a request, the response is one block of lines, of which exactly one says how
long the body is, and it is right. Requests rely on each other to leave sound entries in the
cache and to leave alone the entry that another one holds; what they rely on, they guarantee.
-/

namespace Filth

open Base WorkM

/-- The line is a header of that name. -/
def Header.names (h : Header) (l : Str) : Bool := (extract l).any fun p ↦ p.1 = h

/-- A body in a coding, some content being coded. -/
def InCoding (compress : Str → Str) : ContentCoding → Str → Prop
  | .gzip, body => ∃ content, body = compress content
  | .identity, _ => True
  | .compress, _ | .deflate, _ => False

/-- One block of lines, with the length of the body, which is in the coding that is announced. -/
def Framed (compress : Str → Str) (text body : Str) : Prop :=
  ∃ lines, text = block lines ∧ (∀ l ∈ lines, l ≠ [] ∧ Clean l) ∧
    lines.filter Header.contentLength.names =
      [Header.contentLength.print ++ decimal body.length] ∧
    ∀ l ∈ lines, Header.contentEncoding.names l →
      ∃ enc : ContentCoding, l = Header.contentEncoding.print ++ enc.str ∧
        InCoding compress enc body

private theorem Header.names_print (h hd : Header) (v : Str) :
    h.names (hd.print ++ v) = decide (hd = h) := by
  rw [names, extract_print]
  rfl

private theorem Header.names_of_no_colon {l : Str} (h : Header) (hl : ':' ∉ l) :
    h.names l = false := by
  rw [names, extract_eq_none hl]
  rfl

private theorem Header.print_append_ne_nil (h : Header) (v : Str) : h.print ++ v ≠ [] := by
  simp [print]

/-- The status line is not a header. -/
theorem statusLine_not_header (s : Status) : ':' ∉ httpVersion ++ ' ' :: s.print := by
  have hdigits : ':' ∉ decimal s.val := by
    intro h
    exact absurd (Nat.isDigit_of_mem_toDigits (by decide) (by decide) h) (by decide)
  have hname : ':' ∉ s.str.map fun c ↦ if c = '_' then ' ' else c :=
    not_mem_printed (fun _ ↦ s.mem_str) (by decide) (by decide)
  simp only [List.mem_append, List.mem_cons, Status.print, not_or]
  exact ⟨by decide, by decide, hdigits, by decide, hname⟩

private theorem statusLine_clean (s : Status) : Clean (httpVersion ++ ' ' :: s.print) := by
  have hversion : Clean (httpVersion ++ [' ']) := by decide
  have happend := hversion.append s.clean_print
  rwa [List.append_assoc] at happend

variable {compress : Str → Str}

/-- A status line and headers are framed if the numbers are right. -/
theorem framed_statusAndHeaders (stat : Status) {hs : List (Header × Str)} {body : Str}
    (hclean : ∀ p ∈ hs, Clean p.2)
    (hlen : hs.filter (fun p ↦ p.1 = .contentLength) = [(.contentLength, decimal body.length)])
    (henc : ∀ p ∈ hs, p.1 = .contentEncoding →
      ∃ enc : ContentCoding, p.2 = enc.str ∧ InCoding compress enc body) :
    Framed compress (block (statusAndHeaders stat hs)) body := by
  refine ⟨_, rfl, ?_, ?_, ?_⟩
  · intro l hl
    rcases List.mem_cons.mp hl with rfl | hl
    · exact ⟨List.append_ne_nil_of_left_ne_nil (by decide) _, statusLine_clean stat⟩
    · obtain ⟨p, hp, rfl⟩ := List.mem_map.mp hl
      exact ⟨Header.print_append_ne_nil _ _, p.1.clean_print.append (hclean p hp)⟩
  · have hnames : (Header.contentLength.names ∘ fun p : Header × Str ↦ p.1.print ++ p.2) =
        fun p ↦ decide (p.1 = .contentLength) := by
      funext p
      exact Header.names_print _ _ _
    have hstatus := Header.names_of_no_colon .contentLength (statusLine_not_header stat)
    rw [statusAndHeaders, List.filter_cons_of_neg (by rw [hstatus]; decide), List.filter_map, hnames,
      hlen]
    rfl
  · intro l hl hname
    rcases List.mem_cons.mp hl with rfl | hl
    · rw [Header.names_of_no_colon _ (statusLine_not_header stat)] at hname
      cases hname
    · obtain ⟨p, hp, rfl⟩ := List.mem_map.mp hl
      rw [Header.names_print, decide_eq_true_eq] at hname
      obtain ⟨enc, hv, hin⟩ := henc p hp hname
      exact ⟨enc, by rw [hname, hv], hin⟩

/-- A framed block has no NUL in it. -/
theorem Framed.cstr_eq {text body : Str} (h : Framed compress text body) : cstr text = text := by
  obtain ⟨lines, rfl, hlines, -⟩ := h
  have hnul : '\x00' ∉ block lines := by
    simp only [block, List.mem_append, List.mem_flatMap, not_or, not_exists, not_and]
    exact ⟨fun l hl ↦ ⟨(hlines l hl).2.2.2, by decide⟩, by decide⟩
  exact cstr_eq_self hnul

/-- A block that does not fill the buffer is set up as it is. -/
theorem Framed.take {text body : Str} {n : Nat} (h : Framed compress text body)
    (hlen : ((cstr text).take n).length < n) : Framed compress ((cstr text).take n) body := by
  rw [h.cstr_eq, List.length_take] at hlen
  rw [h.cstr_eq, List.take_of_length_le (by omega)]
  exact h

/-- A printed entry is framed if its numbers are right. -/
theorem framed_headerBlock {b : HeaderBlock} {body : Str} (hlen : b.contentLength = body.length)
    (henc : InCoding compress b.contentEncoding body)
    (hhdrs : ∀ p ∈ b.hdrs, p.1 ≠ .contentLength ∧ p.1 ≠ .contentEncoding ∧ Clean p.2) :
    Framed compress b.text body := by
  rw [b.text_eq_block]
  apply framed_statusAndHeaders
  · intro p hp
    simp only [HeaderBlock.headers, List.mem_cons] at hp
    rcases hp with rfl | rfl | rfl | hp
    · exact clean_decimal _
    · cases b.contentEncoding <;> decide
    · decide
    · exact (hhdrs p hp).2.2
  · have hothers : b.hdrs.filter (fun p ↦ p.1 = .contentLength) = [] := by
      rw [List.filter_eq_nil_iff]
      intro p hp
      simpa using (hhdrs p hp).1
    simp [HeaderBlock.headers, hothers, hlen]
  · intro p hp hname
    simp only [HeaderBlock.headers, List.mem_cons] at hp
    rcases hp with rfl | rfl | rfl | hp
    · cases hname
    · exact ⟨_, rfl, henc⟩
    · cases hname
    · exact absurd hname (hhdrs p hp).2.1

/-! ### What requests rely on -/

/-- The calls of a request that change no entry. -/
inductive World.Outside {ω Ref : Type} (W : World ω Ref) : ω → ω → Prop
  | get (path w) : W.Outside w (W.get path w).2
  | unget (path w) : W.Outside w (W.unget path w)
  | delete (r w) : W.Outside w (W.delete r w)
  | request (path w) : W.Outside w (W.request path w).2
  | dirtoHTML (path w) : W.Outside w (W.dirtoHTML path w).2
  | putorpost (path body enc append w) : W.Outside w (W.putorpost path body enc append w).2
  | unlink (path w) : W.Outside w (W.unlink path w).2
  | socket (w) : W.Outside w (W.socket w).2
  | getFlags (fd w) : W.Outside w (W.getFlags fd w).2
  | setFlags (fd w) : W.Outside w (W.setFlags fd w).2
  | connect (fd path w) : W.Outside w (W.connect fd path w).2
  | startClient (fd hdrs body w) : W.Outside w (W.startClient fd hdrs body w).2

/-- What requests rely on. `Good o w` says that the entries others may get are sound, apart from
the one that `o` refers to, which one request holds alone. -/
structure Reliable {ω Ref : Type} (W : World ω Ref) (compress : Str → Str)
    (Good : Option Ref → ω → Prop) : Prop where
  /-- `gzip::uncompress` inverts `gzip::compress`. -/
  uncompress (content) : W.uncompress (compress content) content.length = some content
  load_store (r e w) : W.load r (W.store r e w) = e
  /-- No other request uses the entry meanwhile. -/
  alone {w w'} (r) : W.Minor w w' → W.load r w' = W.load r w
  minor {o w w'} : Good o w → W.Minor w w' → Good o w'
  outside {w w'} : Good none w → W.Outside w w' → Good none w'
  away {w} (r) : Good none w → Good (some r) w
  store {r e w} : Good (some r) w → Good (some r) (W.store r e w)
  back {r w} : Good (some r) w → (W.load r w).Sound compress → Good none w
  found {path r w} : Good none w → (W.get path w).1 = some r →
    (W.load r (W.get path w).2).Sound compress
  read {path r w} : Good none w → (W.request path w).1 = .ok r →
    (W.load r (W.request path w).2).Sound compress
  listed {path r w} : Good none w → (W.dirtoHTML path w).1 = .ok r →
    (W.load r (W.dirtoHTML path w).2).Sound compress
  mime (path) : Clean (W.mime path)
  date (t) : Clean (W.date t)

namespace Client

/-- The client accepts one of the codings that the server has. -/
def Coded (w : Client) : Prop := w.clAcceptEnc = .gzip ∨ w.clAcceptEnc = .identity

private theorem keeps_browseCoding {hd : Header} {assign : Client → ContentCoding → Client}
    (refuse : Status)
    (hassign : ∀ w enc, w.Coded → enc = .gzip ∨ enc = .identity → (assign w enc).Coded) :
    (browseCoding hd assign refuse).Keeps Coded := by
  refine .bind (.gets fun _ h ↦ h) fun _ ↦ .ite (fun _ ↦ ?_) fun _ ↦ .pure fun _ h ↦ h
  refine .bind (Q := fun _ ↦ Coded) (.modify fun _ h ↦ h) fun _ ↦ ?_
  apply Eff.Ensures.bind
    (Q := fun o w ↦ w.Coded ∧ ∀ enc, o = some enc → enc = .gzip ∨ enc = .identity)
  · refine .gets fun w hw ↦ ⟨hw, fun enc henc ↦ ?_⟩
    unfold namedCoding at henc
    split_ifs at henc
    · exact .inl (Option.some.inj henc).symm
    · exact .inr (Option.some.inj henc).symm
  · intro o
    cases o with
    | none => exact .throw fun _ h ↦ h.1
    | some enc => exact .modify fun w hw ↦ hassign w enc hw.1 (hw.2 enc rfl)

private theorem keeps_browseReqln (cfg : Config) : (browseReqln cfg).Keeps Coded := by
  intro w hw
  have hcoded : (browseReqln cfg w).2.Coded := by
    unfold browseReqln
    split
    · exact hw
    · exact hw
  constructor
  · intro a w' heq
    rwa [heq] at hcoded
  · intro e w' heq
    rwa [heq] at hcoded

/-- Reading the headers leaves a coding that the server has. -/
theorem keeps_browseReq (cfg : Config) : (browseReq cfg).Keeps Coded :=
  have hcc : browseCacheControl.Keeps Coded := .modify fun _ h ↦ h
  .bind (keeps_browseReqln cfg) fun _ ↦
  .bind (keeps_browseCoding _ fun _ _ _ henc ↦ henc) fun _ ↦
  .bind hcc fun _ ↦ .bind (keeps_connection fun _ h ↦ h) fun _ ↦
  .bind (keeps_browseCoding _ fun _ _ hw _ ↦ hw) fun _ ↦
  .bind (keeps_expect Coded) fun _ ↦ keeps_maxForwards fun _ _ h ↦ h

end Client

section Reliable

variable {ω Ref : Type} {W : World ω Ref} {Good : Option Ref → ω → Prop} {r : Ref} {m : Method}

/-- A mild change leaves an entry sound. -/
private theorem CacheEntry.Sound.mild (h : Reliable W compress Good) {e : CacheEntry}
    (he : e.Sound compress) {f : CacheEntry → CacheEntry} (hf : Mild W f) :
    (f e).Sound compress := by
  cases hf with
  | age n => exact he.pushHeader (by decide) (by decide) (clean_decimalInt n)
  | warning => exact he.pushHeader (by decide) (by decide) (by decide)
  | status stat => exact { he with }
  | type path isFile =>
    refine he.pushHeader (by decide) (by decide) ?_
    split
    · exact h.mime path
    · decide
  | date now => exact he.pushHeader (by decide) (by decide) (h.date now)
  | modified isFile =>
    split
    · exact he.pushHeader (by decide) (by decide) (h.date _)
    · exact he
  | expire t => exact { he with }
  | expires => exact he.pushHeader (by decide) (by decide) (h.date _)

/-- A request that has no entry. -/
def AtRest (Good : Option Ref → ω → Prop) (m : Method) (s : Scene ω Ref) : Prop :=
  Good none s.world ∧ s.client.Coded ∧ s.client.meth = m

/-- A request that has a sound entry to itself. -/
def AtHand (W : World ω Ref) (compress : Str → Str) (Good : Option Ref → ω → Prop) (m : Method)
    (r : Ref) (s : Scene ω Ref) : Prop :=
  Good (some r) s.world ∧ (W.load r s.world).Sound compress ∧ s.client.Coded ∧ s.client.meth = m

private theorem steady_atRest (h : Reliable W compress Good) : Steady W (AtRest Good m) where
  minor hs hm := ⟨h.minor hs.1 hm, hs.2⟩
  setC hs _ := hs
  setUncompressed hs _ := hs
  setCached hs _ := hs
  setRefs hs _ := hs

private theorem steady_atHand (h : Reliable W compress Good) (r : Ref) :
    Steady W (AtHand W compress Good m r) where
  minor hs hm := ⟨h.minor hs.1 hm, by rw [h.alone r hm]; exact hs.2.1, hs.2.2⟩
  setC hs _ := hs
  setUncompressed hs _ := hs
  setCached hs _ := hs
  setRefs hs _ := hs

private theorem route_reliable (h : Reliable W compress Good) :
    Route W (AtRest Good m) (AtHand W compress Good m) where
  steady := steady_atRest h
  entry := steady_atHand h
  yielding r s f hs hf :=
    ⟨h.store hs.1, by rw [h.load_store]; exact hs.2.1.mild h hf, hs.2.2⟩
  found {s path r} hs hg :=
    have hgood := h.outside hs.1 (.get path s.world)
    ⟨⟨hgood, hs.2⟩, h.away r hgood, h.found hs.1 hg, hs.2⟩
  missed hs _ := ⟨h.outside hs.1 (.get _ _), hs.2⟩
  unget hs := ⟨h.outside hs.1 (.unget _ _), hs.2⟩
  read hs hr := ⟨h.away _ (h.outside hs.1 (.request _ _)), h.read hs.1 hr, hs.2⟩
  unread hs _ := ⟨h.outside hs.1 (.request _ _), hs.2⟩
  listed hs hr := ⟨h.away _ (h.outside hs.1 (.dirtoHTML _ _)), h.listed hs.1 hr, hs.2⟩
  unlisted hs _ := ⟨h.outside hs.1 (.dirtoHTML _ _), hs.2⟩
  putorpost hs := ⟨h.outside hs.1 (.putorpost _ _ _ _ _), hs.2⟩
  unlink hs := ⟨h.outside hs.1 (.unlink _ _), hs.2⟩

/-- Printing gives the entry back as it was. -/
theorem ensures_print (h : Reliable W compress Good) {e : CacheEntry}
    (he : e.print.2.Sound compress) {E : Scene ω Ref → Prop} (body : Str) :
    Eff.Ensures (fun s : Scene ω Ref ↦ Good (some r) s.world ∧ W.load r s.world = e)
      (do return some { hdrs := ← printEntry W r, body : Response })
      (fun o s ↦ Good none s.world ∧ o = some { hdrs := e.print.1.text, body }) E := by
  have hprint : (printEntry W r).Ensures
      (fun s : Scene ω Ref ↦ Good (some r) s.world ∧ W.load r s.world = e)
      (fun text s ↦ Good none s.world ∧ text = e.print.1.text) E := by
    refine .bind (Q := fun b s ↦ (Good (some r) s.world ∧ W.load r s.world = e) ∧ b = e.print.1)
      (.gets fun s hs ↦ ⟨hs, by rw [hs.2]⟩) fun b ↦ ?_
    refine .bind (Q := fun _ s ↦ Good none s.world ∧ b = e.print.1) (.modify fun s hs ↦ ?_)
      fun _ ↦ .pure fun s hs ↦ ⟨hs.1, by rw [hs.2]⟩
    obtain ⟨⟨hgood, rfl⟩, hb⟩ := hs
    exact ⟨h.back (h.store hgood) (by rwa [h.load_store]), hb⟩
  exact .bind hprint fun text ↦ .pure fun s hs ↦ ⟨hs.1, by rw [hs.2]⟩

/-- A request that has a sound entry to itself, which is `e`. -/
def Holding (W : World ω Ref) (Good : Option Ref → ω → Prop) (m : Method) (enc : ContentCoding)
    (r : Ref) (e : CacheEntry) (s : Scene ω Ref) : Prop :=
  (Good (some r) s.world ∧ W.load r s.world = e) ∧ s.client.clAcceptEnc = enc ∧ s.client.meth = m

/-- Requests can rely on what is left, and unless the method is `HEAD`, there is a framed response,
or the file is a socket and there is no response yet. -/
def FramedIf (compress : Str → Str) (Good : Option Ref → ω → Prop) (m : Method) (sock : Prop)
    (o : Option Response) (s : Scene ω Ref) : Prop :=
  Good none s.world ∧ (m ≠ .head →
    (sock ∧ o = none) ∨ ∃ resp, o = some resp ∧ Framed compress resp.hdrs resp.body)

private theorem ensures_answer_holding (h : Reliable W compress Good) {e : CacheEntry}
    (he : e.Sound compress) {enc : ContentCoding} (henc : enc = .gzip ∨ enc = .identity)
    {sock : Prop} :
    (answer W r).Ensures (Holding W Good m enc r e) (FramedIf compress Good m sock)
      fun s ↦ Good none s.world := by
  have hrest (s : Scene ω Ref) (hs : Holding W Good m enc r e s) : Good none s.world :=
    h.back hs.1.1 (by rw [hs.1.2]; exact he)
  have hheaders {b : HeaderBlock} (hb : b.hdrs = e.hdrs.entries.map fun p ↦ (p.1, p.2)) :
      ∀ p ∈ b.hdrs, p.1 ≠ .contentLength ∧ p.1 ≠ .contentEncoding ∧ Clean p.2 := by
    rw [hb]
    intro p hp
    obtain ⟨q, hq, rfl⟩ := List.mem_map.mp hp
    exact he.hdrs q hq
  have hfail : Eff.Ensures (Holding W Good m enc r e) (do
      Eff.modify fun s : Scene ω Ref ↦ { s with uncompressed := none }
      throw .internalServerError : WorkM ω Ref (Option Response))
      (FramedIf compress Good m sock) fun s ↦ Good none s.world :=
    .bind (.modify (Q := fun _ ↦ Holding W Good m enc r e) fun _ hs ↦ hs) fun _ ↦ .throw hrest
  obtain ⟨content, hbuf, hin, hon⟩ := he.content
  refine .bind (Q := fun a s ↦ Holding W Good m enc r e s ∧ a = m)
    (.gets fun s hs ↦ ⟨hs, hs.2.2⟩) fun a ↦ .ite (fun ha ↦ ?_) fun _ ↦ ?_
  -- a response without a body
  · subst ha
    refine .bind (Q := fun _ s ↦ (Good (some r) s.world ∧ W.load r s.world = e.pushManip .asHead) ∧
      .head = m) (.modify fun s hs ↦ ⟨⟨h.store hs.1.1.1, ?_⟩, hs.2⟩) fun _ s hs ↦ ?_
    · rw [h.load_store, hs.1.1.2]
    · refine (ensures_print h (by rw [he.print_pushManip]; exact he) []).mono (fun _ h ↦ h)
        (fun o t ht ↦ ?_) (fun _ h ↦ h) s hs.1
      exact ⟨ht.1, fun hne ↦ absurd hs.2.symm hne⟩
  refine .bind (Q := fun a s ↦ Holding W Good m enc r e s ∧ a = enc)
    (.gets fun s hs ↦ ⟨hs.1, hs.1.2.1⟩) fun a ↦ .ite (fun ha ↦ ?_) fun hgzip ↦ .ite (fun ha ↦ ?_)
    fun hid ↦ ?_
  -- the body as it is stored
  · refine .bind (Q := fun body s ↦ Holding W Good m enc r e s ∧ body = compress content)
      (.gets fun s hs ↦ ⟨hs.1, by rw [hs.1.1.2]; exact hbuf⟩) fun body s hs ↦ ?_
    obtain ⟨hs, rfl⟩ := hs
    refine (ensures_print h (by rw [he.print]; exact he) (compress content)).mono (fun _ h ↦ h)
      (fun o t ht ↦ ⟨ht.1, fun _ ↦ .inr ⟨_, ht.2, framed_headerBlock ?_ ?_ (hheaders rfl)⟩⟩)
      (fun _ h ↦ h) s hs.1
    · simp [CacheEntry.print, he.omitBody, he.asifUncompressed, hin]
    · simp [CacheEntry.print, he.asifUncompressed, he.enc, InCoding]
  -- the body without compression
  · refine .bind (Q := fun n s ↦ Holding W Good m enc r e s ∧ n = content.length)
      (.gets fun s hs ↦ ⟨hs.1, by rw [hs.1.1.2, hon]⟩) fun n ↦ ?_
    refine .bind (Q := fun _ s ↦ Holding W Good m enc r e s ∧ n = content.length)
      (.modifyGet fun s hs ↦ ?_) fun granted ↦ .ite
        (fun _ ↦ hfail.mono (fun _ hs ↦ hs.1) (fun _ _ h ↦ h) fun _ h ↦ h) fun _ ↦ ?_
    · obtain ⟨⟨⟨hgood, hload⟩, hclient⟩, hn⟩ := hs
      exact ⟨⟨⟨h.minor hgood (.malloc n s.world), by rw [h.alone r (.malloc n s.world), hload]⟩,
        hclient⟩, hn⟩
    · refine .bind (Q := fun body s ↦ Holding W Good m enc r e s ∧ body = some content)
        (.gets fun s hs ↦ ?_) fun body ↦ ?_
      · obtain ⟨hs, rfl⟩ := hs
        have hplain := h.uncompress content
        rw [← hbuf, ← hs.1.2] at hplain
        exact ⟨hs, hplain⟩
      · cases body with
        | none => exact hfail.mono (fun _ hs ↦ hs.1) (fun _ _ h ↦ h) fun _ h ↦ h
        | some body =>
          refine .bind (Q := fun _ s ↦ Holding W Good m enc r e s ∧ some body = some content)
            (.modify fun s hs ↦ hs) fun _ ↦ ?_
          refine .bind (Q := fun _ s ↦ (Good (some r) s.world ∧
            W.load r s.world = e.pushManip .asIdentity) ∧ some body = some content)
            (.modify fun s hs ↦ ⟨⟨h.store hs.1.1.1, ?_⟩, hs.2⟩) fun _ s hs ↦ ?_
          · rw [h.load_store, hs.1.1.2]
          · obtain ⟨hs, heq⟩ := hs
            obtain rfl := Option.some.inj heq
            refine (ensures_print h (by rw [he.print_pushManip]; exact he) body).mono
              (fun _ h ↦ h) (fun o t ht ↦ ⟨ht.1, fun _ ↦
                .inr ⟨_, ht.2, framed_headerBlock ?_ ?_ (hheaders rfl)⟩⟩) (fun _ h ↦ h) s hs
            · simp [CacheEntry.print, CacheEntry.pushManip, he.omitBody, hon]
            · simp [CacheEntry.print, CacheEntry.pushManip, InCoding]
  -- there is no other coding
  · intro s hs
    rcases henc with henc | henc
    · exact absurd (hs.2.trans henc) hgzip
    · exact absurd (hs.2.trans henc) hid

/-- The answer from a sound entry is framed, and leaves the entry sound. -/
private theorem ensures_answer (h : Reliable W compress Good) {sock : Prop} (r : Ref) :
    (answer W r).Ensures (AtHand W compress Good m r) (FramedIf compress Good m sock)
      fun s ↦ Good none s.world := fun s hs ↦
  ensures_answer_holding h hs.2.1 hs.2.2.1 s ⟨⟨hs.1, rfl⟩, rfl, hs.2.2.2⟩

/-- The response to what was thrown is framed. -/
theorem ensures_onOops (h : Reliable W compress Good) (e : Status) (sock : Prop) :
    Eff.Ensures (fun s : Scene ω Ref ↦ Good none s.world) (do return some (← onOops W e))
      (FramedIf compress Good m sock) fun s ↦ Good none s.world := by
  have hframed (now : Int) : Framed compress
      (httpVersion ++ ' ' :: e.print ++ crlf ++ HeaderBlock.line .date (W.date now) ++
        HeaderBlock.line .server packageName ++
        HeaderBlock.line .contentLength (decimal e.str.length) ++ crlf) e.str := by
    have htext : httpVersion ++ ' ' :: e.print ++ crlf ++ HeaderBlock.line .date (W.date now) ++
        HeaderBlock.line .server packageName ++
        HeaderBlock.line .contentLength (decimal e.str.length) ++ crlf =
        block (statusAndHeaders e [(.date, W.date now), (.server, packageName),
          (.contentLength, decimal e.str.length)]) := by
      simp [block, statusAndHeaders, HeaderBlock.line, crlf]
    rw [htext]
    apply framed_statusAndHeaders
    · simp only [List.forall_mem_cons]
      exact ⟨h.date now, by decide, clean_decimal _, by simp⟩
    · rfl
    · simp
  have hcall : (call W.time : WorkM ω Ref Int).Keeps fun s : Scene ω Ref ↦ Good none s.world :=
    .modifyGet fun s hs ↦ h.minor hs (.time s.world)
  refine .bind (Q := fun resp s ↦ Good none s.world ∧ Framed compress resp.hdrs resp.body)
    (.bind hcall fun now ↦ .pure fun s hs ↦ ⟨hs, hframed now⟩) fun resp ↦ ?_
  exact .pure fun s hs ↦ ⟨hs.1, fun _ ↦ .inr ⟨resp, rfl, hs.2⟩⟩

/-- A request that is handed to a socket leaves the entries alone. -/
private theorem ensures_domainSocket (h : Reliable W compress Good) {sock : Prop} (hsock : sock)
    (path body : Str) : (domainSocket W path body).Ensures (AtRest Good m) (FramedIf compress Good m sock)
      fun s ↦ Good none s.world := by
  have hcall {α : Type} {f : ω → α × ω} (hf : ∀ w, W.Outside w (f w).2) :
      (call f : WorkM ω Ref α).Keeps fun s : Scene ω Ref ↦ Good none s.world :=
    .modifyGet fun s hs ↦ h.outside hs (hf s.world)
  have hthrow : (throw .internalServerError : WorkM ω Ref (Option Response)).Ensures
      (fun s ↦ Good none s.world) (FramedIf compress Good m sock) fun s ↦ Good none s.world :=
    .throw fun _ hs ↦ hs
  refine Eff.Ensures.mono (P := fun s ↦ Good none s.world) ?_ (fun _ hs ↦ hs.1) (fun _ _ h ↦ h)
    fun _ h ↦ h
  apply Eff.Ensures.bind (hcall .socket)
  intro fd
  cases fd with
  | none => exact hthrow
  | some fd =>
    refine .bind (hcall (.getFlags fd)) fun _ ↦ .ite (fun _ ↦ hthrow) fun _ ↦ ?_
    refine .bind (hcall (.setFlags fd)) fun _ ↦ .ite (fun _ ↦ hthrow) fun _ ↦ ?_
    refine .bind (hcall (.connect fd _)) fun _ ↦ .ite (fun _ ↦ hthrow) fun _ ↦ ?_
    refine .bind (keeps_gets _) fun hdrs ↦ .bind (hcall (.startClient fd hdrs body)) fun _ ↦ ?_
    refine .ite (fun _ ↦ ?_) fun _ ↦ hthrow
    refine .bind (Q := fun _ s ↦ Good none s.world) (.modify fun _ hs ↦ hs) fun _ ↦ ?_
    exact .pure fun s hs ↦ ⟨hs, fun _ ↦ .inl ⟨hsock, rfl⟩⟩

/-- The response to a request that has a body is framed, unless the request is handed on, and the
request leaves to others what it relies on. -/
theorem respond_framed (h : Reliable W compress Good) (cfg : Config) {s : Scene ω Ref} (body : Str)
    (hgood : Good none s.world) (hcoded : s.client.Coded) :
    ∃ o s', respond W cfg body s = (.ok o, s') ∧ Good none s'.world ∧
      (s.client.reqHdrs.meth cfg ≠ .head → (NamesSocket W (s.client.reqHdrs.path cfg) ∧ o = none) ∨
        ∃ resp, o = some resp ∧ Framed compress resp.hdrs resp.body) := by
  obtain ⟨o, s', ho⟩ := respond_ok W cfg body s
  refine ⟨o, s', ho, ?_⟩
  rw [respond_eq] at ho
  obtain ⟨hok, herr⟩ := Client.keeps_browseReq cfg s.client hcoded
  cases hb : Client.browseReq cfg s.client with
  | mk r w =>
    rw [hb] at ho
    cases r with
    | error e =>
      exact (ensures_onOops h e _ { s with client := w } hgood).1 o s' ho
    | ok u =>
      have hall := Eff.Ensures.tryCatch (ensures_dispatch W cfg
        (route_reliable h (m := w.meth)) (fun _ hs ↦ hs.1) (fun _ _ hs ↦ h.back hs.1 hs.2.1)
        (fun hsock ↦ ensures_domainSocket h hsock w.path body)
        (ensures_answer h) w.meth) fun e ↦ ensures_onOops h e _
      rw [← (Client.meth_path_of_browseReq hb).1, ← (Client.meth_path_of_browseReq hb).2]
      exact (hall { s with client := w } ⟨hgood, hok () w hb, rfl⟩).1 o s' ho

end Reliable

/-! ### A connection -/

variable {ω Ref : Type} (W : World ω Ref) (cfg : Settings)

/-- After a request has been prepared, a response is set up. It is framed, unless the request is
for headers only or handed to a socket, which leaves nothing to be written, or the block may have
been truncated. -/
def Deed.Follows (compress : Str → Str) : Deed → Deed → Prop
  | .prepare hdrs _, d => ∃ text body, d = .setup text body ∧
      (hdrs.meth cfg.toConfig ≠ .head → ¬ (NamesSocket W (hdrs.path cfg.toConfig) ∧ text = []) →
        text.length < cbufsz - 1 → Framed compress text body)
  | _, _ => True

/-- Every request that has been prepared has got its response. -/
def Orderly (compress : Str → Str) (log : List Deed) : Prop :=
  log.IsChain (Deed.Follows W cfg compress) ∧ ∀ d ∈ log.getLast?, ∀ hdrs body, d ≠ .prepare hdrs body

variable {W cfg} {compress : Str → Str} {Good : Option Ref → ω → Prop}

private theorem Deed.follows_of_ne_prepare {d : Deed} (h : ∀ hdrs body, d ≠ .prepare hdrs body)
    (d' : Deed) :
    d.Follows W cfg compress d' := by
  cases d with
  | prepare hdrs body => exact absurd rfl (h hdrs body)
  | _ => trivial

theorem Orderly.append {log new : List Deed} (h : Orderly W cfg compress log)
    (h' : Orderly W cfg compress new) : Orderly W cfg compress (log ++ new) := by
  refine ⟨List.isChain_append.mpr ⟨h.1, h'.1, ?_⟩, ?_⟩
  · intro d hd d' _
    exact Deed.follows_of_ne_prepare (h.2 d hd) d'
  · intro d hd
    rw [List.getLast?_append] at hd
    cases hnew : new.getLast? with
    | none =>
      rw [hnew] at hd
      exact h.2 d hd
    | some d' =>
      rw [hnew] at hd
      exact h'.2 d (by rw [hnew]; exact hd)

private theorem orderly_singleton {d : Deed} (h : ∀ hdrs body, d ≠ .prepare hdrs body) :
    Orderly W cfg compress [d] := by
  refine ⟨.singleton d, ?_⟩
  intro d' hd'
  obtain rfl : d = d' := by simpa using hd'
  exact h

/-- What holds of the work of a connection. -/
structure ServerWork.Sane (W : World ω Ref) (cfg : Settings) (compress : Str → Str)
    (Good : Option Ref → ω → Prop) (w : ServerWork ω Ref) : Prop where
  coded : w.scene.client.Coded
  good : Good none w.scene.world
  orderly : Orderly W cfg compress w.log

namespace ServerWork

variable {w w' : ServerWork ω Ref} {a : Chances ω}

theorem Sane.concat (hw : w.Sane W cfg compress Good) {d : Deed}
    (h : ∀ hdrs body, d ≠ .prepare hdrs body) : (w.report d).Sane W cfg compress Good :=
  ⟨hw.coded, hw.good, hw.orderly.append (orderly_singleton h)⟩

/-- A request gets its response. -/
theorem Sane.dropdown (h : Reliable W compress Good) (hw : w.Sane W cfg compress Good)
    (ha : Good none a.world) : (w.dropdown W cfg a).1.Sane W cfg compress Good := by
  obtain ⟨o, scene, ho, hgood, hframed⟩ := respond_framed h cfg.toConfig
    (s := { w.scene with world := a.world }) w.inbody ha hw.coded
  have hclient := congrArg Prod.fst
    (serve_client W cfg.toConfig w.scene { hdrs := w.inhdrs, body := w.inbody, world := a.world })
  change (respond W cfg.toConfig w.inbody { w.scene with world := a.world }).2.client = _ at hclient
  rw [ho] at hclient
  have hcoded : scene.client.Coded := by
    obtain ⟨hok, herr⟩ := Client.keeps_browseReq cfg.toConfig w.scene.client hw.coded
    change scene.client = (Client.browseReq cfg.toConfig w.scene.client).2 at hclient
    rw [hclient]
    cases hb : Client.browseReq cfg.toConfig w.scene.client with
    | mk r v =>
      cases r with
      | ok u => exact hok u v hb
      | error e => exact herr e v hb
  have hpair {text body : Str} (hsetup : w.inhdrs.meth cfg.toConfig ≠ .head →
      ¬ (NamesSocket W (w.inhdrs.path cfg.toConfig) ∧ text = []) → text.length < cbufsz - 1 →
        Framed compress text body) :
      Orderly W cfg compress
        (w.log ++ [Deed.prepare w.inhdrs w.inbody] ++ [Deed.setup text body]) := by
    rw [List.append_assoc]
    apply hw.orderly.append
    refine ⟨List.isChain_pair.mpr ⟨text, body, rfl, hsetup⟩, ?_⟩
    rintro d hd hdrs body' rfl
    simp at hd
  unfold ServerWork.dropdown
  simp only [report, inhdrs, ho]
  cases o with
  | none =>
    refine ⟨hcoded, hgood, hpair fun hm hp _ ↦ ?_⟩
    obtain ⟨hsock, -⟩ | ⟨resp, hresp, -⟩ := hframed hm
    · exact absurd ⟨hsock, rfl⟩ hp
    · cases hresp
  | some resp =>
    refine ⟨hcoded, hgood, hpair fun hm _ hlen ↦ ?_⟩
    obtain ⟨-, hresp⟩ | ⟨resp', hresp, hfr⟩ := hframed hm
    · cases hresp
    · cases hresp
      exact hfr.take hlen

/-- What a step of a turn keeps. -/
theorem Sane.step (h : Reliable W compress Good) (ha : Good none a.world)
    (ha' : Good none a.resetWorld) (hstep : Step W cfg a w w')
    (hw : w.Sane W cfg compress Good) : w'.Sane W cfg compress Good := by
  cases hstep with
  | fill => exact ⟨hw.coded, hw.good, hw.orderly⟩
  | parse done inbuf hdrs =>
    have hparse := hw.concat (d := .parse) nofun
    exact ⟨hw.coded, hw.good, hparse.orderly⟩
  | refuse => exact hw.concat nofun
  | respond => exact hw.dropdown h ha
  | write out done bytes =>
    have hwrite := hw.concat (d := .write bytes) nofun
    exact ⟨hw.coded, hw.good, hwrite.orderly⟩
  | finish =>
    have hwrite := hw.concat (d := .write (wruntil w.out a.sizes).1) nofun
    have hfinish := hwrite.concat (d := .finish w.inbuf) nofun
    refine ⟨hw.coded, hw.good, ?_⟩
    have horderly := hfinish.orderly
    simp only [report, List.append_assoc] at horderly
    exact horderly
  | forget inbuf =>
    refine ⟨hw.coded, ?_, hw.orderly⟩
    dsimp only [refreshed, ServerWork.reset, Filth.reset]
    split
    · exact h.outside ha' (.unget _ _)
    · split
      · exact h.outside ha' (.delete _ _)
      · exact ha'

end ServerWork

/-- The work of a connection, or what it was when it went. -/
def Conn.work : Conn ω Ref → ServerWork ω Ref
  | .live w _ | .deleted w | .crashed w _ => w

theorem Ending.work_settle (w : ServerWork ω Ref) (e : Ending) : (e.settle w).work = w := by
  cases e with
  | oops e => rfl
  | socketErr => rfl
  | rescheduled =>
    rw [settle]
    split <;> rfl
  | silent =>
    rw [settle]
    split <;> rfl

/-- For every reliable world, all settings and every run of a connection whose turns find the
world as requests leave it: each request gets a response that is framed as it should be, and the
world is left as it was found. -/
theorem responses_framed (h : Reliable W compress Good) {world : ω} (hworld : Good none world)
    {acts : List (Act ω)}
    (hacts : ∀ a, .turn a ∈ acts → Good none a.world ∧ Good none a.resetWorld) {c : Conn ω Ref}
    (hrun : (assemblyLine W cfg (.new world)).run (assemblyLine W cfg (.new world)).init acts =
      some c) :
    Orderly W cfg compress c.work.log ∧ Good none c.work.scene.world := by
  have hall : ∀ (c₀ : Conn ω Ref) {acts : List (Act ω)}, c₀.work.Sane W cfg compress Good →
      (∀ a, .turn a ∈ acts → Good none a.world ∧ Good none a.resetWorld) →
      (assemblyLine W cfg (.new world)).run c₀ acts = some c →
      c.work.Sane W cfg compress Good := by
    intro c₀ acts hc₀ hacts hrun
    induction acts generalizing c₀ with
    | nil =>
      cases hrun
      exact hc₀
    | cons act acts ih =>
      rw [Machine.run_cons] at hrun
      obtain ⟨c₁, hstep, hrun⟩ := Option.bind_eq_some_iff.mp hrun
      refine ih c₁ ?_ (fun a ha ↦ hacts a (List.mem_cons_of_mem act ha)) hrun
      rcases assemblyLine_step W cfg hstep with
        ⟨w, a, rfl, rfl, rfl⟩ | ⟨w, armed, hdrs, body, granted, rfl, rfl, -, rfl⟩
      · obtain ⟨ha, ha'⟩ := hacts a List.mem_cons_self
        rw [Ending.work_settle]
        exact ServerWork.keeps_of_steps W cfg
          (fun _ _ hstep hw ↦ ServerWork.Sane.step h ha ha' hstep hw)
          (ServerWork.steps_operator W cfg) hc₀
      · exact ⟨hc₀.coded, hc₀.good, hc₀.orderly.append (orderly_singleton nofun)⟩
  have hnew : (ServerWork.new world : ServerWork ω Ref).Sane W cfg compress Good :=
    ⟨.inr rfl, hworld, .nil, nofun⟩
  have hc := hall (.live (.new world) true) hnew hacts hrun
  exact ⟨hc.orderly, hc.good⟩

/-- A shelf of sound entries stays one when a sound entry is added. -/
theorem Shelf.sound_add {w : Shelf} (hw : ∀ r, (w.heap r).Sound compress)
    {made : Except Errno CacheEntry} (hmade : ∀ e, made = .ok e → e.Sound compress) (r : Nat) :
    ((w.add made).2.heap r).Sound compress := by
  cases made with
  | error err => exact hw r
  | ok e =>
    change (Function.update w.heap w.next e r).Sound compress
    by_cases hr : r = w.next
    · rw [hr, Function.update_self]
      exact hmade e rfl
    · rw [Function.update_of_ne hr]
      exact hw r

/-- A server with one connection is reliable. -/
private theorem reliable_solitary {uncompress : Str → Nat → Option Str}
    (huncompress : ∀ content, uncompress (compress content) content.length = some content)
    (files : Str → FileCalls) (dirs : Str → DirCalls) {mime : Str → Str} {date : Int → Str}
    (hmime : ∀ path, Clean (mime path)) (hdate : ∀ t, Clean (date t)) :
    Reliable (World.solitary compress uncompress files dirs mime date) compress
      fun o w ↦ ∀ r, o ≠ some r → (w.heap r).Sound compress where
  uncompress := huncompress
  load_store r e w := by
    change Function.update w.heap r e r = e
    rw [Function.update_self]
  alone _ hm := by cases hm <;> rfl
  minor hw hm := by cases hm <;> exact hw
  outside hw ho := by
    cases ho with
    | request path w =>
      exact fun r _ ↦ Shelf.sound_add (fun r ↦ hw r nofun) (fun e ↦ CacheEntry.sound_requestFile) r
    | dirtoHTML path w =>
      exact fun r _ ↦ Shelf.sound_add (fun r ↦ hw r nofun) (fun e ↦ CacheEntry.sound_dirtoHTML) r
    | _ => exact hw
  away _ hw r _ := hw r nofun
  store {r e w} hw r' hr := by
    have hne : r' ≠ r := fun h ↦ hr (by rw [h])
    change (Function.update w.heap r e r').Sound compress
    rw [Function.update_of_ne hne]
    exact hw r' hr
  back {r w} hw hr r' _ := by
    by_cases h : r = r'
    · exact h ▸ hr
    · exact hw r' fun h' ↦ h (Option.some.inj h')
  found hw _ := hw _ nofun
  read hw _ := Shelf.sound_add (fun r ↦ hw r nofun) (fun e ↦ CacheEntry.sound_requestFile) _
  listed hw _ := Shelf.sound_add (fun r ↦ hw r nofun) (fun e ↦ CacheEntry.sound_dirtoHTML) _
  mime := hmime
  date := hdate

/-- What zlib makes of nothing. -/
def emptyGzip : Str :=
  [0x1f, 0x8b, 8, 0, 0, 0, 0, 0, 0, 3, 3, 0, 0, 0, 0, 0, 0, 0, 0, 0].map Char.ofNat

/-- A compression that is right about nothing. -/
def gzipOfEmpty (content : Str) : Str := if content = [] then emptyGzip else 'x' :: content

/-- Its inverse. -/
def gunzipOfEmpty (s : Str) (_ : Nat) : Option Str := if s = emptyGzip then some [] else s.tail?

/-- An empty file. -/
def emptyFile : FileCalls :=
  { requestTime := 0, stat := .ok { kind := .reg, size := 0, mtime := 0 }, fopen := none
    ftrylockfile := true, malloc := true, contents := [], whole := by rintro _ ⟨⟩; rfl
    new := true, compresses := true, responseTime := 0 }

/-- A directory that cannot be opened. -/
def noDirectory : DirCalls :=
  { opendir := some .enoent, malloc := true, names := [], readdir := none, new := true, now := 0
    compresses := true }

/-- A server where every file is empty. -/
def World.empty : World Shelf Nat :=
  .solitary gzipOfEmpty gunzipOfEmpty (fun _ ↦ emptyFile) (fun _ ↦ noDirectory)
    (fun _ ↦ "text/plain".toList) fun _ ↦ "Thu, 01 Jan 1970 00:00:00 GMT".toList

/-- A shelf with nothing on it that anybody could get. -/
def Shelf.new : Shelf :=
  { heap := fun _ ↦ .new 0 emptyGzip.length 0 0 0 emptyGzip .gzip, next := 0, cache := fun _ ↦ none }

/-- A turn in which a request for a file arrives. -/
def Chances.forEmpty : Chances Shelf :=
  { sizes := [], writeStop := .clear, readStop := .blocked
    chunks := ["GET /a HTTP/1.1\r\nAccept-Encoding: gzip\r\n\r\n".toList]
    bodyChunks := [], bodyStop := .clear, resetWorld := .new, world := .new }

/-- A request for an empty file, and the response. -/
theorem responses_framed_empty : ∃ c : Conn Shelf Nat,
    (assemblyLine World.empty .lax (.new Shelf.new)).run
      (assemblyLine World.empty .lax (.new Shelf.new)).init [.turn .forEmpty] = some c ∧
    Orderly World.empty .lax gzipOfEmpty c.work.log := by
  have hgunzip (content : Str) : gunzipOfEmpty (gzipOfEmpty content) content.length = some content := by
    cases content with
    | nil => decide
    | cons c content => simp [gunzipOfEmpty, gzipOfEmpty, emptyGzip]
  have hreliable : Reliable World.empty gzipOfEmpty
      fun o w ↦ ∀ r, o ≠ some r → (w.heap r).Sound gzipOfEmpty :=
    reliable_solitary hgunzip _ _ (fun _ ↦ by decide) fun _ ↦ by decide
  have hnew : ∀ r, none ≠ some r → (Shelf.new.heap r).Sound gzipOfEmpty :=
    fun _ _ ↦ CacheEntry.sound_new gzipOfEmpty [] 0 0 0
  have hall (c : Conn Shelf Nat) (hc : (assemblyLine World.empty .lax (.new Shelf.new)).run
      (assemblyLine World.empty .lax (.new Shelf.new)).init [.turn .forEmpty] = some c) :
      Orderly World.empty .lax gzipOfEmpty c.work.log := by
    refine (responses_framed hreliable hnew ?_ hc).1
    intro a ha
    obtain rfl := Act.turn.inj (List.mem_singleton.mp ha)
    exact ⟨hnew, hnew⟩
  exact ⟨_, rfl, hall _ rfl⟩

end Filth
