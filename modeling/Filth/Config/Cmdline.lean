import Filth.Base.Words

/-!
# The command line

`cmdline`, `src/cmdline.hpp`, for any table of options, and the table of the server,
`data/HTTP_cmdline.def`. A long argument is compared with the names of the options in the order of
the table, and each of them only as far as it is long; what is assigned stands behind the first
equals sign of the argument.
-/

namespace Filth

open Base

/-- How the process ends before the command line has been read, `src/cmdline.hpp:171–196`: after a
help text, or after a message about an option that is not recognised. -/
inductive Exit where
  | help
  | unrecognized (option : Str)
  deriving DecidableEq, Repr

/-- The tables that `cmdline<N>` keeps of its options, `src/cmdline.hpp:58–79`. -/
structure Cmdline (O : Type) where
  options : List O
  shorts : O → Char
  longs : O → Str
  svals : O → Str
  ivals : O → Int
  bvals : O → Bool

namespace Cmdline

variable {O : Type} [DecidableEq O]

/-- `svals[j] = v` -/
def set (c : Cmdline O) (j : O) (v : Str) : Cmdline O :=
  { c with svals := Function.update c.svals j v }

/-- `strchr(tmp, '=') + 1`, if there is an equals sign. -/
def afterEq (tmp : Str) : Option Str :=
  if '=' ∈ tmp then some (tmp.drop ((tmp.takeWhile (· ≠ '=')).length + 1)) else none

/-- The option that a long argument is taken for: the first one whose name it begins with. -/
def findLong (c : Cmdline O) (flag : Str) : Option O :=
  c.options.find? fun j ↦ (c.longs j).isPrefixOf flag

/-- The option that a short argument is taken for. -/
def findShort (c : Cmdline O) (flag : Char) : Option O :=
  c.options.find? fun j ↦ decide (flag = c.shorts j ∧ flag ≠ '-')

/-- One turn of the loop of `parsecmdline`, `src/cmdline.hpp:116–166`. -/
def parsearg (c : Cmdline O) (tmp : Str) : Except Exit (Cmdline O) :=
  if "--help".toList.isPrefixOf tmp then .error .help
  else match tmp with
    | '-' :: '-' :: flag =>
      match c.findLong flag with
      | none => .error (.unrecognized tmp)
      | some j =>
        match afterEq tmp with
        | some v => .ok (c.set j v)
        -- only boolean options can take no argument
        | none => if c.bvals j then .ok (c.set j "true".toList) else .error (.unrecognized tmp)
    | '-' :: flag :: v =>
      match c.findShort flag with
      | none => .error (.unrecognized tmp)
      | some j =>
        if v ≠ [] then .ok (c.set j v)
        else if c.bvals j then .ok (c.set j "true".toList)
        else .error (.unrecognized tmp)
    | _ => .error (.unrecognized tmp)

/-- The loop of `parsecmdline`, `src/cmdline.hpp:115–167`. -/
def parseargs (c : Cmdline O) (argv : List Str) : Except Exit (Cmdline O) := argv.foldlM parsearg c

/-- `atoi`, which takes what `strtol` has read into an `int`. -/
def atoi (s : Str) : Int := (extractTime s 0 + 2 ^ 31) % 2 ^ 32 - 2 ^ 31

/-- `atoi_opts`, `src/cmdline.hpp:198–209` -/
def atoiOpts (c : Cmdline O) : Cmdline O :=
  { c with
    ivals := fun i ↦ if c.ivals i ≠ 0 then atoi (c.svals i) else c.ivals i
    bvals := fun i ↦
      if c.ivals i = 0 ∧ c.bvals i = true ∧ "false".toList.isPrefixOf (c.svals i) = true then false
      else c.bvals i }

/-- `parsecmdline`, without the name of the program; `src/cmdline.hpp:109–169`. -/
def parsecmdline (c : Cmdline O) (argv : List Str) : Except Exit (Cmdline O) :=
  (c.parseargs argv).map atoiOpts

end Cmdline

/-- The options of the server, in the order of `HTTP_cmdline.def`; `data/HTTP_cmdline.def:1–26`. -/
inductive Opt where
  | ipv6 | cachesz | defaultResource | sigdlExt | sigflush | untrustedGid | ifnam | mount | port
  | listenq | reqPreallocSz | sigdlInt | untrustedUid | nworkers | cacheExpires | maxReqBody
  | maxReqHdr | maxReqUri | mimedb | tcpKeepaliveIntvl | tcpKeepaliveProbes | tcpKeepaliveTime
  deriving DecidableEq, Repr

namespace Opt

/-- Whether an option has been defined as a boolean, an integer or a string. -/
inductive Kind where
  | bool | int | str
  deriving DecidableEq, Repr

/-- `DEFINE_ME_BOOL`, `DEFINE_ME_INT` or `DEFINE_ME_STR` -/
def kind : Opt → Kind
  | ipv6 => .bool
  | defaultResource | sigdlExt | sigflush | ifnam | mount | sigdlInt | mimedb => .str
  | _ => .int

/-- `_short` -/
def short : Opt → Char
  | ipv6 => '6'
  | cachesz => 'c'
  | defaultResource => 'd'
  | sigdlExt => 'e'
  | sigflush => 'f'
  | untrustedGid => 'g'
  | ifnam => 'i'
  | mount => 'm'
  | port => 'p'
  | listenq => 'q'
  | reqPreallocSz => 'r'
  | sigdlInt => 't'
  | untrustedUid => 'u'
  | nworkers => 'w'
  | cacheExpires => 'x'
  | maxReqBody | maxReqHdr | maxReqUri | mimedb | tcpKeepaliveIntvl | tcpKeepaliveProbes
  | tcpKeepaliveTime => '-'

/-- `_long` -/
def long : Opt → Str
  | ipv6 => "ipv6".toList
  | cachesz => "cache-mb".toList
  | defaultResource => "default-resource".toList
  | sigdlExt => "sigdeadlock".toList
  | sigflush => "sigflush".toList
  | untrustedGid => "untrusted-uid".toList
  | ifnam => "interface".toList
  | mount => "mount".toList
  | port => "port".toList
  | listenq => "listen-queue".toList
  | reqPreallocSz => "req-prealloc-mb".toList
  | sigdlInt => "sigth".toList
  | untrustedUid => "untrusted-uid".toList
  | nworkers => "num-workers".toList
  | cacheExpires => "cache-expires".toList
  | maxReqBody => "max-req-body".toList
  | maxReqHdr => "max-req-header".toList
  | maxReqUri => "max-req-uri".toList
  | mimedb => "mime-db".toList
  | tcpKeepaliveIntvl => "tcp-keepalive-intvl".toList
  | tcpKeepaliveProbes => "tcp-keepalive-probes".toList
  | tcpKeepaliveTime => "tcp-keepalive-time".toList

/-- `_default` -/
def default : Opt → Str
  | ipv6 => "false".toList
  | cachesz => "10".toList
  | defaultResource => "index.html".toList
  | sigdlExt => "USR1".toList
  | sigflush => "CONT".toList
  | untrustedGid => "9999".toList
  | ifnam => "eth0".toList
  | mount => ".".toList
  | port => "80".toList
  | listenq => "10".toList
  | reqPreallocSz => "10".toList
  | sigdlInt => "USR2".toList
  | untrustedUid => "9999".toList
  | nworkers => "10".toList
  | cacheExpires => "10".toList
  | maxReqBody => "10".toList
  | maxReqHdr => "4096".toList
  | maxReqUri => "4096".toList
  | mimedb => "/etc/mime.types".toList
  | tcpKeepaliveIntvl => "1".toList
  | tcpKeepaliveProbes => "1".toList
  | tcpKeepaliveTime => "15".toList

end Opt

/-- The tables that `cmdlinesetup` fills in before it reads the arguments,
`src/HTTP_cmdline.cpp:21–81`. -/
def HTTPCmdline.c : Cmdline Opt where
  options := [.ipv6, .cachesz, .defaultResource, .sigdlExt, .sigflush, .untrustedGid, .ifnam,
    .mount, .port, .listenq, .reqPreallocSz, .sigdlInt, .untrustedUid, .nworkers, .cacheExpires,
    .maxReqBody, .maxReqHdr, .maxReqUri, .mimedb, .tcpKeepaliveIntvl, .tcpKeepaliveProbes,
    .tcpKeepaliveTime]
  shorts := Opt.short
  longs := Opt.long
  svals := Opt.default
  ivals j := if j.kind = .int then 1 else 0
  bvals j := j.kind = .bool

/-- `cmdlinesetup`, without the name of the program; `src/HTTP_cmdline.cpp:19–83`. -/
def HTTPCmdline.cmdlinesetup (argv : List Str) : Except Exit (Cmdline Opt) :=
  HTTPCmdline.c.parsecmdline argv

/-! ### Long arguments -/

/-- The name in a long argument: what stands before the first equals sign. -/
def namePart (flag : Str) : Str := flag.takeWhile (· ≠ '=')

/-- The argument that is to assign a value to an option. -/
def assignment (name v : Str) : Str := '-' :: '-' :: (name ++ '=' :: v)

namespace Cmdline

variable {O : Type} {c c' : Cmdline O} {name v flag tmp : Str} {j : O}

/-- How far a name reaches is decided before the equals sign. -/
theorem isPrefixOf_append_eq {w : Str} (hw : '=' ∉ w) (name v : Str) :
    w.isPrefixOf (name ++ '=' :: v) = w.isPrefixOf name := by
  rw [Bool.eq_iff_iff, List.isPrefixOf_iff_prefix, List.isPrefixOf_iff_prefix]
  exact ⟨prefix_of_prefix_append_cons hw, fun h ↦ h.trans (List.prefix_append _ _)⟩

private theorem isPrefixOf_help (flag : Str) :
    "--help".toList.isPrefixOf ('-' :: '-' :: flag) = "help".toList.isPrefixOf flag := by
  have hhelp : "--help".toList = '-' :: '-' :: "help".toList := by decide
  rw [hhelp, List.isPrefixOf_cons_cons, List.isPrefixOf_cons_cons]
  simp

private theorem findLong_append_eq (c : Cmdline O) (h : ∀ k, '=' ∉ c.longs k) (name v : Str) :
    c.findLong (name ++ '=' :: v) = c.findLong name := by
  unfold findLong
  congr 1
  funext k
  exact isPrefixOf_append_eq (h k) name v

private theorem prefix_of_findLong (h : c.findLong flag = some j) : c.longs j <+: flag := by
  have hj := List.find?_some h
  exact List.isPrefixOf_iff_prefix.mp hj

private theorem afterEq_append (h : '=' ∉ name) (v : Str) :
    afterEq (name ++ '=' :: v) = some v := by
  rw [afterEq, if_pos (by simp), takeWhile_ne_append h]
  simp

private theorem afterEq_eq_none (h : '=' ∉ tmp) : afterEq tmp = none := if_neg h

variable [DecidableEq O]

/-- A long argument that is none for help. -/
theorem parsearg_long (c : Cmdline O) (hhelp : "help".toList.isPrefixOf flag = false) :
    c.parsearg ('-' :: '-' :: flag) =
      match c.findLong flag with
      | none => .error (.unrecognized ('-' :: '-' :: flag))
      | some j =>
        match afterEq ('-' :: '-' :: flag) with
        | some v => .ok (c.set j v)
        | none => if c.bvals j then .ok (c.set j "true".toList)
          else .error (.unrecognized ('-' :: '-' :: flag)) := by
  rw [parsearg, isPrefixOf_help, hhelp, if_neg (by decide)]

/-- What an assignment assigns to. -/
private theorem parsearg_assignment (hlongs : ∀ k, '=' ∉ c.longs k) (hname : '=' ∉ name)
    (hhelp : "help".toList.isPrefixOf name = false) (hj : c.findLong name = some j) (v : Str) :
    c.parsearg (assignment name v) = .ok (c.set j v) := by
  have hhelp' : "help".toList.isPrefixOf (name ++ '=' :: v) = false := by
    rw [isPrefixOf_append_eq (by decide), hhelp]
  have hdashes : '=' ∉ '-' :: '-' :: name := by simp [hname]
  have heq : afterEq ('-' :: '-' :: (name ++ '=' :: v)) = some v := afterEq_append hdashes v
  rw [assignment, parsearg_long c hhelp', findLong_append_eq c hlongs, hj]
  simp only [heq]

/-- Arguments change values and nothing else. -/
private theorem exists_svals_of_parsearg (h : c.parsearg tmp = .ok c') :
    ∃ svals, c' = { c with svals } := by
  unfold parsearg at h
  repeat' split at h
  all_goals cases h
  all_goals exact ⟨_, rfl⟩

private theorem exists_svals_of_parseargs {argv : List Str} (h : c.parseargs argv = .ok c') :
    ∃ svals, c' = { c with svals } := by
  induction argv generalizing c with
  | nil =>
    cases h
    exact ⟨_, rfl⟩
  | cons tmp argv ih =>
    rw [parseargs, List.foldlM_cons] at h
    cases hc : c.parsearg tmp with
    | error e =>
      rw [hc] at h
      cases h
    | ok c₁ =>
      rw [hc] at h
      obtain ⟨svals, rfl⟩ := exists_svals_of_parsearg hc
      have hrest : parseargs { c with svals } argv = .ok c' := h
      have hc' := ih hrest
      exact hc'

end Cmdline

/-! ### The options of the server -/

/-- An argument for one option assigns to that option, and a long argument without the name of an
option is not recognised. -/
structure Lawful (c : Cmdline Opt) (tmp : Str) : Prop where
  own : ∀ j v, tmp = assignment j.long v → c.parsearg tmp = .ok (c.set j v)
  unknown : ∀ flag, tmp = '-' :: '-' :: flag → (∀ j : Opt, namePart flag ≠ j.long) →
    c.parsearg tmp = .error (.unrecognized tmp)

/-- An argument with the name `untrusted-uid` finds what it assigns in both of the options of that
name, and one without the name of an option does not begin with `help`, and begins with a name only
if it has no equals sign and the option is not a boolean one. -/
structure OnTarget (svals : Opt → Str) (tmp : Str) : Prop where
  own : ∀ v, tmp = assignment "untrusted-uid".toList v →
    svals .untrustedGid = v ∧ svals .untrustedUid = v
  unknown : ∀ flag, tmp = '-' :: '-' :: flag → (∀ j : Opt, namePart flag ≠ j.long) →
    ¬ "help".toList <+: flag ∧ ∀ j : Opt, j.long <+: flag → '=' ∉ flag ∧ j.kind ≠ .bool

namespace HTTPCmdline

/-- The option that gets what is meant for an option. -/
def owner (j : Opt) : Opt := if j = .untrustedUid then .untrustedGid else j

private theorem findLong_long (j : Opt) : c.findLong j.long = some (owner j) := by
  cases j <;> decide

private theorem eq_not_mem_long (j : Opt) : '=' ∉ j.long := by
  cases j <;> decide

private theorem help_not_prefix_long (j : Opt) : "help".toList.isPrefixOf j.long = false := by
  cases j <;> decide

private theorem mem_options (j : Opt) : j ∈ c.options := by
  cases j <;> decide

/-- The only boolean option is the first one of the table. -/
private theorem findLong_of_bool {j : Opt} {flag : Str} (hj : j.kind = .bool)
    (h : j.long <+: flag) :
    c.findLong flag = some j := by
  have hipv6 : j = .ipv6 := by
    cases j <;> first | rfl | cases hj
  subst hipv6
  exact List.find?_cons_of_pos (List.isPrefixOf_iff_prefix.mpr h)

/-- What the argument for an option does. -/
theorem parsearg_own (svals : Opt → Str) (j : Opt) (v : Str) :
    ({ c with svals } : Cmdline Opt).parsearg (assignment j.long v) =
      .ok (({ c with svals } : Cmdline Opt).set (owner j) v) :=
  Cmdline.parsearg_assignment (c := { c with svals }) eq_not_mem_long (eq_not_mem_long j)
    (help_not_prefix_long j) (findLong_long j) v

/-- Two options get the same value only if that makes no difference. -/
theorem set_eq_set_iff {c : Cmdline Opt} {j k : Opt} (hjk : j ≠ k) (v : Str) :
    c.set j v = c.set k v ↔ c.svals j = v ∧ c.svals k = v := by
  constructor
  · intro h
    have hsvals := congrArg Cmdline.svals h
    have hj := congrFun hsvals j
    have hk := congrFun hsvals k
    simp only [Cmdline.set, Function.update_self, Function.update_of_ne hjk,
      Function.update_of_ne hjk.symm] at hj hk
    exact ⟨hj.symm, hk⟩
  · rintro ⟨hj, hk⟩
    rw [Cmdline.set, Cmdline.set, ← hj, Function.update_eq_self, hj, ← hk, Function.update_eq_self]

/-- When the argument for an option does what it should. -/
theorem own_iff (svals : Opt → Str) (tmp : Str) :
    (∀ j v, tmp = assignment (Opt.long j) v → ({ c with svals } : Cmdline Opt).parsearg tmp =
      .ok (({ c with svals } : Cmdline Opt).set j v)) ↔
        ∀ v, tmp = assignment "untrusted-uid".toList v →
          svals .untrustedGid = v ∧ svals .untrustedUid = v := by
  have hne : Opt.untrustedGid ≠ Opt.untrustedUid := by decide
  constructor
  · intro h v hv
    have huid := (parsearg_own svals .untrustedUid v).symm.trans (hv ▸ h .untrustedUid v hv)
    exact (set_eq_set_iff hne v).mp (Except.ok.inj huid)
  · rintro h j v rfl
    rw [parsearg_own]
    by_cases hj : j = .untrustedUid
    · subst hj
      exact congrArg _ ((set_eq_set_iff hne v).mpr (h v rfl))
    · rw [owner, if_neg hj]

/-- When an argument is not recognised. -/
theorem unrecognized_iff (svals : Opt → Str) (flag : Str) :
    ({ c with svals } : Cmdline Opt).parsearg ('-' :: '-' :: flag) =
        .error (.unrecognized ('-' :: '-' :: flag)) ↔
      ¬ "help".toList <+: flag ∧ ∀ j : Opt, j.long <+: flag → '=' ∉ flag ∧ j.kind ≠ .bool := by
  by_cases hhelp : "help".toList.isPrefixOf flag = true
  · have hprefix := List.isPrefixOf_iff_prefix.mp hhelp
    rw [Cmdline.parsearg, Cmdline.isPrefixOf_help, if_pos hhelp]
    exact iff_of_false (by simp) fun h ↦ h.1 hprefix
  · have hprefix : ¬ "help".toList <+: flag := mt List.isPrefixOf_iff_prefix.mpr hhelp
    rw [Bool.not_eq_true] at hhelp
    rw [Cmdline.parsearg_long _ hhelp, and_iff_right hprefix]
    have hsame : ({ c with svals } : Cmdline Opt).findLong flag = c.findLong flag := rfl
    rw [hsame]
    cases hfind : c.findLong flag with
    | none =>
      refine iff_of_true rfl fun j hj ↦ ?_
      have hnone := List.find?_eq_none.mp hfind j (mem_options j)
      exact absurd (List.isPrefixOf_iff_prefix.mpr hj) hnone
    | some k =>
      have hk : k.long <+: flag := Cmdline.prefix_of_findLong hfind
      by_cases heq : '=' ∈ flag
      · obtain ⟨v, hv⟩ : ∃ v, Cmdline.afterEq ('-' :: '-' :: flag) = some v :=
          ⟨_, if_pos (by simp [heq])⟩
        simp only [hv]
        exact iff_of_false (by simp) fun h ↦ (h k hk).1 heq
      · have hnone : Cmdline.afterEq ('-' :: '-' :: flag) = none :=
          Cmdline.afterEq_eq_none (by simp [heq])
        simp only [hnone]
        by_cases hkind : k.kind = .bool
        · have hb : c.bvals k = true := decide_eq_true hkind
          rw [if_pos hb]
          exact iff_of_false (by simp) fun h ↦ (h k hk).2 hkind
        · have hb : ¬ c.bvals k = true := mt of_decide_eq_true hkind
          rw [if_neg hb]
          refine iff_of_true rfl fun j hj ↦ ⟨heq, fun hbool ↦ ?_⟩
          cases hfind.symm.trans (findLong_of_bool hbool hj)
          exact hkind hbool

/-- In every argument vector and for every argument that is reached in it: it is processed as it
should be if and only if it is on target. -/
theorem lawful_iff (before : List Str) (tmp : Str) (c' : Cmdline Opt)
    (hreached : c.parseargs before = .ok c') : Lawful c' tmp ↔ OnTarget c'.svals tmp := by
  obtain ⟨svals, rfl⟩ := Cmdline.exists_svals_of_parseargs hreached
  constructor
  · intro h
    refine ⟨(own_iff svals tmp).mp h.own, fun flag htmp hname ↦ ?_⟩
    subst htmp
    exact (unrecognized_iff svals flag).mp (h.unknown flag rfl hname)
  · intro h
    refine ⟨(own_iff svals tmp).mpr h.own, fun flag htmp hname ↦ ?_⟩
    subst htmp
    exact (unrecognized_iff svals flag).mpr (h.unknown flag rfl hname)

/-- The port, after a short argument for it. -/
theorem lawful_iff_port : Lawful (c.set .port "8080".toList) "--port=80".toList ↔
    OnTarget (c.set .port "8080".toList).svals "--port=80".toList :=
  lawful_iff ["-p8080".toList] _ _ (by rfl)

/-- The user that the server is to become becomes its group. -/
theorem not_lawful_uid : ¬ ∀ (before : List Str) (tmp : Str) (c' : Cmdline Opt),
    c.parseargs before = .ok c' → Lawful c' tmp := by
  intro h
  have hlaw := h [] (assignment "untrusted-uid".toList "0".toList) c rfl
  have hown := (own_iff Opt.default _).mp hlaw.own
  exact absurd (hown "0".toList rfl).1 (by decide)

/-- In a vector of assignments, none of them to the user, every option has the last value that is
assigned to it. -/
theorem parseargs_assignments (as : List (Opt × Str)) (has : ∀ a ∈ as, a.1 ≠ .untrustedUid)
    (svals : Opt → Str) :
    ({ c with svals } : Cmdline Opt).parseargs (as.map fun a ↦ assignment a.1.long a.2) =
      .ok { c with svals := as.foldl (fun s a ↦ Function.update s a.1 a.2) svals } := by
  induction as generalizing svals with
  | nil => rfl
  | cons a as ih =>
    have hown := parsearg_own svals a.1 a.2
    rw [owner, if_neg (has a List.mem_cons_self)] at hown
    rw [List.map_cons, Cmdline.parseargs, List.foldlM_cons, hown]
    exact ih (fun b hb ↦ has b (List.mem_cons_of_mem a hb)) (Function.update svals a.1 a.2)

/-- The same after the whole of `cmdlinesetup`. -/
theorem cmdlinesetup_assignments (as : List (Opt × Str)) (has : ∀ a ∈ as, a.1 ≠ .untrustedUid) :
    (cmdlinesetup (as.map fun a ↦ assignment a.1.long a.2)).map Cmdline.svals =
      .ok (as.foldl (fun s a ↦ Function.update s a.1 a.2) Opt.default) := by
  have hargs := parseargs_assignments as has Opt.default
  change c.parseargs _ = _ at hargs
  rw [cmdlinesetup, Cmdline.parsecmdline, hargs]
  rfl

end HTTPCmdline

end Filth
