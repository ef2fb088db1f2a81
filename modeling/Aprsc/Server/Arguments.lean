-- SUMMARY: The accesses to the argument vector by the handlers of configuration and access list lines, and on which lines they stay inside of it.
import Aprsc.Base.Traced
import Aprsc.Server.Acl
import Aprsc.Server.Config

/-!
# Argument vectors

`parse_args` cuts a line into words and returns how many there are. The handlers index the
words. Here each access to the vector is traced with its index and the number of words. What
the pointers after the words lead to is unknown.
-/

namespace Aprsc

/-! ## Accesses -/

/-- An access `argv[index]` to a vector of `argc` words. -/
structure ArgvAccess where
  argc : Nat
  index : Nat
deriving Repr, DecidableEq

def ArgvAccess.InBounds (a : ArgvAccess) : Prop := a.index < a.argc

/-- The words of a line, and the texts that are found where there are no words. -/
structure Argv where
  words : List Bytes
  beyond : Nat → Bytes

namespace Argv

def argc (argv : Argv) : Nat := argv.words.length

/-- The words after the first one. -/
def args (argv : Argv) : List Bytes := argv.words.drop 1

/-- `argv[i]`. -/
def word (argv : Argv) (i : Nat) : Traced ArgvAccess Bytes := do
  Traced.tell ⟨argv.argc, i⟩
  pure (argv.words.getD i (argv.beyond i))

variable (argv : Argv) (i : Nat)

theorem word_all : (argv.word i).All ArgvAccess.InBounds ↔ i < argv.argc := by
  rw [word, Traced.all_bind, Traced.all_tell, Traced.all_pure, and_true]
  exact Iff.rfl

theorem word_val : (argv.word i).val = argv.words.getD i (argv.beyond i) := rfl

/-- A word that is only printed. -/
def print {α : Type} (argv : Argv) (i : Nat) (result : α) : Traced ArgvAccess α := do
  let _ ← argv.word i
  pure result

theorem print_all {α : Type} (result : α) :
    (argv.print i result).All ArgvAccess.InBounds ↔ i < argv.argc := by
  rw [print, Traced.all_bind, word_all, Traced.all_pure, and_true]

theorem print_val {α : Type} (result : α) : (argv.print i result).val = result := rfl

end Argv

/-! ## Handlers -/

/-- `do_logrotate`. -/
def doLogrotateArgv (argv : Argv) : Traced ArgvAccess CmdResult :=
  if argv.argc ≠ 3 then pure (-1, [])
  else do
    let size ← argv.word 1
    if atoi size < 1 then argv.print 1 (-1, [])
    else do
      let num ← argv.word 2
      if atoi num < 1 then
        argv.print 2
          (-1, [.var .logRotateSize (cInt (atoi size * 1024 * 1024)), .var .logRotateSize 0])
      else
        pure
          (0, [.var .logRotateSize (cInt (atoi size * 1024 * 1024)), .var .logRotateNum (atoi num)])

/-- `do_http_listener`. -/
def doHttpListenerArgv (uploadType : Bool) (argv : Argv) : Traced ArgvAccess CmdResult :=
  if argv.argc ≠ 3 then pure (-1, [])
  else do
    let host ← argv.word 1
    let port ← argv.word 2
    pure (0, [.http { host, port := atoi port, uploadPort := uploadType }])

/-- `config_uplink_tls`, where `i` is the index of the option. -/
def configUplinkTls (env : ConfigEnv) (argv : Argv) (i : Nat) (which : TlsFile) (l : UplinkConfigT) :
    Traced ArgvAccess (Option UplinkConfigT) :=
  if env.useSsl = false then argv.print 1 none
  else if i + 1 ≥ argv.argc then argv.print 1 none
  else if (l.tls which).isSome then argv.print 1 none
  else do
    let file ← argv.word (i + 1)
    pure (some { l with tls := assign l.tls which (some file) })

/-- The loop of `do_uplink` over the options from index `i` on, for some rounds. -/
def uplinkOptionsArgv (env : ConfigEnv) (argv : Argv) :
    (rounds i : Nat) → UplinkConfigT → Traced ArgvAccess (Option UplinkConfigT)
  | 0, _, l => pure (some l)
  | rounds + 1, i, l =>
      if i < argv.argc then do
        let opt ← argv.word i
        match tlsOption opt with
        | none => do
            let _ ← argv.word 1
            argv.print i none
        | some which => do
            let configured ← configUplinkTls env argv i which l
            match configured with
            | none => pure none
            | some l => uplinkOptionsArgv env argv rounds (i + 2) l
      else pure (some l)

/-- The end of `do_uplink`, from the port on. -/
def uplinkPortArgv (env : ConfigEnv) (argv : Argv) (clflags : UInt32) : Traced ArgvAccess CmdResult := do
  let port ← argv.word 5
  if atoi port < 1 ∨ atoi port > 65535 then argv.print 5 (-2, [])
  else do
    let name ← argv.word 1
    let proto ← argv.word 3
    let host ← argv.word 4
    let port ← argv.word 5
    let configured ← uplinkOptionsArgv env argv argv.argc 6
      { name, proto, host, port, tls := fun _ => none, clientFlags := clflags }
    match configured with
    | none => pure (-2, [])
    | some l => pure (0, [.uplink l])

/-- `do_uplink`. -/
def doUplinkArgv (env : ConfigEnv) (argv : Argv) : Traced ArgvAccess CmdResult :=
  if argv.argc < 5 then pure (-1, [])
  else do
    let type ← argv.word 2
    match uplinkType type with
    | none => argv.print 2 (-2, [])
    | some clflags => do
        let proto ← argv.word 3
        match ipProto env proto with
        | none => argv.print 3 (-2, [])
        | some _ => uplinkPortArgv env argv clflags

section
variable (env : ConfigEnv) (listenConfig : List ListenConfigT)
  (newPeeripConfig : List PeeripConfigT) (n : Nat)

/-- The directive of a line. Only the handlers above are traced. -/
def Directive.handleArgv (argv : Argv) : Directive → Traced ArgvAccess (Option CmdResult)
  | .logrotate => do
      let r ← doLogrotateArgv argv
      pure (some r)
  | .httpstatus => do
      let r ← doHttpListenerArgv false argv
      pure (some r)
  | .httpupload => do
      let r ← doHttpListenerArgv true argv
      pure (some r)
  | .uplink => do
      let r ← doUplinkArgv env argv
      pure (some r)
  | directive => pure (directive.handle env listenConfig newPeeripConfig n argv.args)

/-- `cmdparse`. -/
def cmdparseArgv (beyond : Nat → Bytes) (line : Bytes) : Traced ArgvAccess (Option CmdResult) :=
  let argv : Argv := ⟨parseArgs line, beyond⟩
  if argv.argc = 0 then pure (some (0, []))
  else do
    let cmd ← argv.word 0
    if cmd.head? = some (ch '#') then pure (some (0, []))
    else
      match cfgCmds.find? fun c => caseEq (ascii c.1) cmd with
      | none => argv.print 0 (some (-1, []))
      | some c => c.2.handleArgv env listenConfig newPeeripConfig n argv

end

/-- The words of a line of `acl_load`. A wrong number of them fails, but the line is still added. -/
def aclLoadArgv (getaddrinfo : Bytes → Option (List Sockaddr)) (load : Acl × Bool) (argv : Argv) :
    Traced ArgvAccess (Option (Acl × Bool)) := do
  let failed := load.2 || argv.argc != 2
  let command ← argv.word 0
  match aclCommand command with
  | none => argv.print 0 (some (load.1, true))
  | some allow => do
      let netspec ← argv.word 1
      match aclAdd getaddrinfo load.1 netspec allow with
      | none => pure none
      | some (rc, acl) =>
          if rc = 0 then pure (some (acl, failed)) else argv.print 1 (some (acl, true))

/-- One line of `acl_load`. -/
def aclLoadLineArgv (getaddrinfo : Bytes → Option (List Sockaddr)) (beyond : Nat → Bytes)
    (load : Acl × Bool) (buf : Bytes) : Traced ArgvAccess (Option (Acl × Bool)) :=
  let buf := aclStrip buf
  if buf = [] then pure (some load)
  else aclLoadArgv getaddrinfo load ⟨parseArgs buf, beyond⟩

/-- The type and the protocol of an uplink are known. -/
def UplinkKnown (env : ConfigEnv) (type proto : Bytes) : Prop :=
  (uplinkType type).isSome ∧ (ipProto env proto).isSome

/-- An `Uplink` line of a known type and protocol does not end before its port. -/
def UplinkComplete (env : ConfigEnv) (words : List Bytes) : Prop :=
  ∀ cmd name type proto host, words = [cmd, name, type, proto, host] →
    caseEq (ascii "uplink") cmd = true → ¬UplinkKnown env type proto

/-- A line of an access list has words, and more than one if the first is a command. -/
def AclComplete (words : List Bytes) : Prop :=
  words ≠ [] ∧ ∀ command, words = [command] → aclCommand command = none

/-! ## Words that are there -/

namespace Argv

variable {argv : Argv} {i : Nat}

/-- The words from an index on start with the word of the index. -/
theorem drop_words (h : i < argv.argc) :
    argv.words.drop i = (argv.word i).val :: argv.words.drop (i + 1) := by
  rw [List.drop_eq_getElem_cons h, word_val, List.getD_eq_getElem?_getD, List.getElem?_eq_getElem h,
    Option.getD_some]

theorem drop_words_eq_nil (h : argv.argc ≤ i) : argv.words.drop i = [] := List.drop_eq_nil_of_le h

/-- All words of a vector that has some. -/
theorem words_eq (h : 0 < argv.argc) : argv.words = (argv.word 0).val :: argv.args :=
  (argv.drop_words h : argv.words.drop 0 = _)

theorem args_eq_drop : argv.args = argv.words.drop 1 := rfl

end Argv

/-! ## What the handlers do -/

section
variable {argv : Argv}

theorem doLogrotateArgv_all (argv : Argv) : (doLogrotateArgv argv).All ArgvAccess.InBounds := by
  rw [doLogrotateArgv, Traced.all_ite]
  refine ⟨fun _ => (Traced.all_pure _ _).mpr trivial, fun hargc => ?_⟩
  rw [Decidable.not_not] at hargc
  rw [Traced.all_bind, argv.word_all, Traced.all_ite, argv.print_all, Traced.all_bind, argv.word_all,
    Traced.all_ite, argv.print_all, Traced.all_pure, hargc]
  simp

theorem doLogrotateArgv_val (argv : Argv) : (doLogrotateArgv argv).val = doLogrotate argv.args := by
  rw [doLogrotateArgv, Traced.val_ite]
  by_cases hargc : argv.argc = 3
  · rw [if_neg (not_not_intro hargc), Argv.args_eq_drop, argv.drop_words (by omega),
      argv.drop_words (by omega), argv.drop_words_eq_nil (by omega), doLogrotate]
    simp only [Traced.val_bind, Traced.val_ite, Argv.print_val, Traced.val_pure]
  · rw [if_pos hargc]
    have hlen : argv.args.length ≠ 2 := by
      rw [Argv.args_eq_drop, List.length_drop]
      intro h
      exact hargc (show argv.words.length = 3 by omega)
    unfold doLogrotate
    split
    · rename_i heq
      exact absurd (congrArg List.length heq) hlen
    · rfl

theorem doHttpListenerArgv_all (uploadType : Bool) (argv : Argv) :
    (doHttpListenerArgv uploadType argv).All ArgvAccess.InBounds := by
  rw [doHttpListenerArgv, Traced.all_ite]
  refine ⟨fun _ => (Traced.all_pure _ _).mpr trivial, fun hargc => ?_⟩
  rw [Decidable.not_not] at hargc
  rw [Traced.all_bind, argv.word_all, Traced.all_bind, argv.word_all, Traced.all_pure, hargc]
  simp

theorem doHttpListenerArgv_val (uploadType : Bool) (argv : Argv) :
    (doHttpListenerArgv uploadType argv).val = doHttpListener uploadType argv.args := by
  rw [doHttpListenerArgv, Traced.val_ite]
  by_cases hargc : argv.argc = 3
  · rw [if_neg (not_not_intro hargc), Argv.args_eq_drop, argv.drop_words (by omega),
      argv.drop_words (by omega), argv.drop_words_eq_nil (by omega), doHttpListener]
    rfl
  · rw [if_pos hargc]
    have hlen : argv.args.length ≠ 2 := by
      rw [Argv.args_eq_drop, List.length_drop]
      intro h
      exact hargc (show argv.words.length = 3 by omega)
    unfold doHttpListener
    split
    · rename_i heq
      exact absurd (congrArg List.length heq) hlen
    · rfl

section
variable {env : ConfigEnv} {l : UplinkConfigT} {opt file : Bytes} {args : List Bytes} {which : TlsFile}

theorem uplinkOptions_none (h : tlsOption opt = none) : uplinkOptions env l (opt :: args) = none := by
  rw [uplinkOptions.eq_def]
  simp only [h]

theorem uplinkOptions_last (h : tlsOption opt = some which) : uplinkOptions env l [opt] = none := by
  rw [uplinkOptions.eq_def]
  simp only [h]

theorem uplinkOptions_file (h : tlsOption opt = some which) :
    uplinkOptions env l (opt :: file :: args) =
      if !env.useSsl || (l.tls which).isSome then none
      else uplinkOptions env { l with tls := assign l.tls which (some file) } args := by
  rw [uplinkOptions.eq_def]
  simp only [h]

end

/-- The option takes the next word. -/
theorem configUplinkTls_spec (env : ConfigEnv) (hname : 1 < argv.argc) (i : Nat) (which : TlsFile) (l : UplinkConfigT) :
    (configUplinkTls env argv i which l).All ArgvAccess.InBounds ∧
    (configUplinkTls env argv i which l).val =
      if i + 1 ≥ argv.argc ∨ env.useSsl = false ∨ (l.tls which).isSome = true then none
      else some { l with tls := assign l.tls which (some (argv.word (i + 1)).val) } := by
  unfold configUplinkTls
  constructor
  · simp only [Traced.all_ite, argv.print_all, Traced.all_bind, argv.word_all, Traced.all_pure, and_true]
    exact ⟨fun _ => hname, fun _ => ⟨fun _ => hname, fun h => ⟨fun _ => hname, fun _ => by omega⟩⟩⟩
  · by_cases hssl : env.useSsl = false
    · rw [if_pos hssl, if_pos (.inr (.inl hssl))]
      rfl
    · rw [if_neg hssl, Traced.val_ite]
      by_cases hlast : i + 1 ≥ argv.argc
      · rw [if_pos hlast, if_pos (.inl hlast)]
        rfl
      · rw [if_neg hlast, Traced.val_ite]
        by_cases hset : (l.tls which).isSome = true
        · rw [if_pos hset, if_pos (.inr (.inr hset))]
          rfl
        · rw [if_neg hset, if_neg (by simp [hlast, hssl, hset])]
          rfl

/-- The options are read inside of the vector, and are those of the words. -/
theorem uplinkOptionsArgv_spec (env : ConfigEnv) (hname : 1 < argv.argc) {rounds i : Nat} (l : UplinkConfigT)
    (hrounds : argv.argc ≤ rounds + i) :
    (uplinkOptionsArgv env argv rounds i l).All ArgvAccess.InBounds ∧
    (uplinkOptionsArgv env argv rounds i l).val = uplinkOptions env l (argv.words.drop i) := by
  induction rounds generalizing i l with
  | zero =>
    rw [argv.drop_words_eq_nil (by omega)]
    exact ⟨(Traced.all_pure _ _).mpr trivial, rfl⟩
  | succ rounds ih =>
    rw [uplinkOptionsArgv]
    by_cases hi : i < argv.argc
    · rw [if_pos hi, Traced.all_bind, Traced.val_bind, argv.word_all, argv.drop_words hi]
      generalize (argv.word i).val = opt
      cases hopt : tlsOption opt with
      | none =>
        dsimp only
        rw [Traced.all_bind, argv.word_all, argv.print_all, uplinkOptions_none hopt]
        exact ⟨⟨hi, hname, hi⟩, rfl⟩
      | some which =>
        dsimp only
        rw [Traced.all_bind, Traced.val_bind]
        obtain ⟨hall, hval⟩ := configUplinkTls_spec env hname i which l
        rw [hval]
        by_cases hlast : i + 1 ≥ argv.argc
        · rw [if_pos (.inl hlast), argv.drop_words_eq_nil hlast, uplinkOptions_last hopt]
          exact ⟨⟨hi, hall, (Traced.all_pure _ _).mpr trivial⟩, rfl⟩
        · rw [argv.drop_words (Nat.not_le.mp hlast), uplinkOptions_file hopt]
          by_cases hfails : env.useSsl = false ∨ (l.tls which).isSome = true
          · rw [if_pos (.inr hfails), if_pos (by simpa using hfails)]
            exact ⟨⟨hi, hall, (Traced.all_pure _ _).mpr trivial⟩, rfl⟩
          · rw [if_neg (not_or.mpr ⟨hlast, hfails⟩), if_neg (by simpa using hfails)]
            have hnext : argv.argc ≤ rounds + (i + 2) := by omega
            obtain ⟨hall', hval'⟩ := ih { l with tls := assign l.tls which (some (argv.word (i + 1)).val) } hnext
            exact ⟨⟨hi, hall, hall'⟩, hval'⟩
    · rw [if_neg hi, argv.drop_words_eq_nil (by omega)]
      exact ⟨(Traced.all_pure _ _).mpr trivial, rfl⟩

theorem uplinkPortArgv_all_iff (env : ConfigEnv) (argv : Argv) (clflags : UInt32) :
    (uplinkPortArgv env argv clflags).All ArgvAccess.InBounds ↔ 5 < argv.argc := by
  rw [uplinkPortArgv, Traced.all_bind, argv.word_all]
  refine ⟨fun h => h.1, fun h => ⟨h, ?_⟩⟩
  simp only [Traced.all_ite, argv.print_all, Traced.all_bind, argv.word_all]
  refine ⟨fun _ => h, fun _ => ⟨by omega, by omega, by omega, h, ?_, ?_⟩⟩
  · exact (uplinkOptionsArgv_spec env (by omega) _ (Nat.le_add_right argv.argc 6)).1
  · split <;> exact (Traced.all_pure _ _).mpr trivial

/-- A known uplink needs its port. -/
theorem doUplinkArgv_all_iff (env : ConfigEnv) (argv : Argv) :
    (doUplinkArgv env argv).All ArgvAccess.InBounds ↔
      ¬(argv.argc = 5 ∧ UplinkKnown env (argv.word 2).val (argv.word 3).val) := by
  rw [doUplinkArgv, Traced.all_ite]
  by_cases hshort : argv.argc < 5
  · refine iff_of_true ⟨fun _ => (Traced.all_pure _ _).mpr trivial, fun hnot => absurd hshort hnot⟩ ?_
    rintro ⟨hargc, -⟩
    omega
  · simp only [hshort, false_implies, true_and, not_false_eq_true, true_implies]
    rw [Traced.all_bind, argv.word_all, UplinkKnown]
    cases htype : uplinkType (argv.word 2).val with
    | none =>
      dsimp only
      rw [argv.print_all]
      exact iff_of_true ⟨by omega, by omega⟩ (by simp)
    | some clflags =>
      dsimp only
      rw [Traced.all_bind, argv.word_all]
      cases hproto : ipProto env (argv.word 3).val with
      | none =>
        dsimp only
        rw [argv.print_all]
        exact iff_of_true ⟨by omega, by omega, by omega⟩ (by simp)
      | some ip =>
        dsimp only
        rw [uplinkPortArgv_all_iff]
        simp only [Option.isSome_some, and_self, and_true]
        omega

theorem doUplink_short {args : List Bytes} (env : ConfigEnv) (h : args.length < 4) :
    doUplink env args = some (-1, []) := by
  unfold doUplink
  split
  · simp at h
  · simp only [List.length_cons] at h
    omega
  · rfl

/-- The words of an uplink with a port. -/
theorem args_of_port (h : 5 < argv.argc) :
    argv.args = (argv.word 1).val :: (argv.word 2).val :: (argv.word 3).val :: (argv.word 4).val ::
      (argv.word 5).val :: argv.words.drop 6 := by
  rw [Argv.args_eq_drop, argv.drop_words (by omega), argv.drop_words (by omega),
    argv.drop_words (by omega), argv.drop_words (by omega), argv.drop_words h]

theorem uplinkPortArgv_val (env : ConfigEnv) (hargc : 5 < argv.argc) {clflags : UInt32} {ip : IpProto}
    (htype : uplinkType (argv.word 2).val = some clflags)
    (hproto : ipProto env (argv.word 3).val = some ip) :
    doUplink env argv.args = some (uplinkPortArgv env argv clflags).val := by
  rw [args_of_port hargc, doUplink, htype, hproto]
  dsimp only
  rw [uplinkPortArgv, Traced.val_bind, Traced.val_ite, Argv.print_val]
  simp only [Traced.val_bind]
  by_cases hport : atoi (argv.word 5).val < 1 ∨ atoi (argv.word 5).val > 65535
  · rw [if_pos hport, if_pos hport]
  · rw [if_neg hport, if_neg hport,
      (uplinkOptionsArgv_spec env (by omega) _ (Nat.le_add_right argv.argc 6)).2]
    generalize uplinkOptions env _ (argv.words.drop 6) = options
    cases options <;> rfl

theorem args_of_no_port (h : argv.argc = 5) :
    argv.args = [(argv.word 1).val, (argv.word 2).val, (argv.word 3).val, (argv.word 4).val] := by
  rw [Argv.args_eq_drop, argv.drop_words (by omega), argv.drop_words (by omega),
    argv.drop_words (by omega), argv.drop_words (by omega), argv.drop_words_eq_nil (by omega)]

theorem doUplink_no_port (env : ConfigEnv) (h : argv.argc = 5) :
    doUplink env argv.args =
      if (uplinkType (argv.word 2).val).isSome && (ipProto env (argv.word 3).val).isSome then none
      else some (-2, []) := by
  rw [args_of_no_port h, doUplink]

theorem doUplink_unknown (env : ConfigEnv) (hargc : 5 ≤ argv.argc)
    (h : ¬UplinkKnown env (argv.word 2).val (argv.word 3).val) :
    doUplink env argv.args = some (-2, []) := by
  by_cases hfive : argv.argc = 5
  · rw [doUplink_no_port env hfive, if_neg (by simpa [UplinkKnown] using h)]
  · rw [args_of_port (Nat.lt_of_le_of_ne hargc (Ne.symm hfive)), doUplink]
    split
    · rename_i htype hproto
      exact absurd ⟨by rw [htype]; rfl, by rw [hproto]; rfl⟩ h
    · rfl

/-- Without an access outside of the vector, the handler does what the words say. -/
theorem doUplinkArgv_val (env : ConfigEnv) (h : (doUplinkArgv env argv).All ArgvAccess.InBounds) :
    doUplink env argv.args = some (doUplinkArgv env argv).val := by
  rw [doUplinkArgv_all_iff] at h
  rw [doUplinkArgv, Traced.val_ite]
  by_cases hshort : argv.argc < 5
  · rw [if_pos hshort]
    refine doUplink_short env ?_
    rw [Argv.args_eq_drop, List.length_drop]
    show argv.argc - 1 < 4
    omega
  · rw [if_neg hshort, Traced.val_bind]
    have hargc := Nat.not_lt.mp hshort
    cases htype : uplinkType (argv.word 2).val with
    | none => exact doUplink_unknown env hargc fun hknown => by simp [UplinkKnown, htype] at hknown
    | some clflags =>
      dsimp only
      rw [Traced.val_bind]
      cases hproto : ipProto env (argv.word 3).val with
      | none => exact doUplink_unknown env hargc fun hknown => by simp [UplinkKnown, hproto] at hknown
      | some ip =>
        have hknown : UplinkKnown env (argv.word 2).val (argv.word 3).val :=
          ⟨by rw [htype]; rfl, by rw [hproto]; rfl⟩
        have hport : 5 < argv.argc := Nat.lt_of_le_of_ne hargc fun hfive => h ⟨hfive.symm, hknown⟩
        exact uplinkPortArgv_val env hport htype hproto

/-- With one, it does not go on. -/
theorem doUplinkArgv_stops (env : ConfigEnv) (h : ¬(doUplinkArgv env argv).All ArgvAccess.InBounds) :
    doUplink env argv.args = none := by
  rw [doUplinkArgv_all_iff, Classical.not_not] at h
  obtain ⟨hargc, htype, hproto⟩ := h
  rw [doUplink_no_port env hargc, htype, hproto]
  rfl

end

/-! ## Lines -/

section
variable {env : ConfigEnv} {listenConfig : List ListenConfigT} {peers : List PeeripConfigT} {n : Nat}
  {argv : Argv}

theorem handleArgv_all_iff (directive : Directive) :
    (directive.handleArgv env listenConfig peers n argv).All ArgvAccess.InBounds ↔
      (directive = .uplink → (doUplinkArgv env argv).All ArgvAccess.InBounds) := by
  cases directive <;> simp [Directive.handleArgv, doLogrotateArgv_all, doHttpListenerArgv_all]

theorem handleArgv_val (directive : Directive)
    (h : (directive.handleArgv env listenConfig peers n argv).All ArgvAccess.InBounds) :
    directive.handle env listenConfig peers n argv.args =
      (directive.handleArgv env listenConfig peers n argv).val := by
  rw [handleArgv_all_iff] at h
  cases directive with
  | logrotate => exact congrArg some (doLogrotateArgv_val argv).symm
  | httpstatus => exact congrArg some (doHttpListenerArgv_val false argv).symm
  | httpupload => exact congrArg some (doHttpListenerArgv_val true argv).symm
  | uplink => exact doUplinkArgv_val env (h rfl)
  | _ => rfl

/-- The directive of a command is that of uplinks if the command is. -/
theorem find_uplink_iff {cmd : Bytes} {c : String × Directive}
    (hfind : (cfgCmds.find? fun c => caseEq (ascii c.1) cmd) = some c) :
    c.2 = .uplink ↔ caseEq (ascii "uplink") cmd = true := by
  have hname : caseEq (ascii c.1) cmd = true := by simpa using List.find?_some hfind
  have hmem := List.mem_of_find?_eq_some hfind
  constructor
  · intro huplink
    have hnames : ∀ c ∈ cfgCmds, c.2 = .uplink → c.1 = "uplink" :=
      forall_mem_of_all (by decide +kernel)
    rwa [← hnames c hmem huplink]
  · intro hcmd
    -- Names with the same letters are the same.
    have hsame : caseEq (ascii c.1) (ascii "uplink") = true := by
      unfold caseEq at hname hcmd ⊢
      rw [beq_iff_eq] at hname hcmd ⊢
      rw [hname, hcmd]
    have hnames : ∀ c ∈ cfgCmds, caseEq (ascii c.1) (ascii "uplink") = true → c.2 = .uplink :=
      forall_mem_of_all (by decide +kernel)
    exact hnames c hmem hsame

theorem caseEq_uplink_head {cmd : Bytes} (h : caseEq (ascii "uplink") cmd = true) :
    cmd.head? ≠ some (ch '#') := by
  unfold caseEq at h
  rw [beq_iff_eq] at h
  intro hhead
  have htol := congrArg List.head? h
  rw [List.head?_map, List.head?_map, hhead] at htol
  exact absurd htol (by decide)

theorem uplinkComplete_iff (h : 0 < argv.argc) :
    UplinkComplete env argv.words ↔
      (caseEq (ascii "uplink") (argv.word 0).val = true →
        ¬(argv.argc = 5 ∧ UplinkKnown env (argv.word 2).val (argv.word 3).val)) := by
  constructor
  · rintro hcomplete hcmd ⟨hargc, hknown⟩
    have hwords := argv.words_eq h
    rw [args_of_no_port hargc] at hwords
    exact hcomplete _ _ _ _ _ hwords hcmd hknown
  · intro himp cmd name type proto host hwords hcmd hknown
    refine himp ?_ ⟨congrArg List.length hwords, ?_⟩
    · rwa [argv.word_val, hwords]
    · rwa [argv.word_val, argv.word_val, hwords]

/-- A line of a configuration stays inside of its words unless it is an uplink without a port. -/
theorem cmdparseArgv_all_iff {beyond : Nat → Bytes} {line : Bytes} :
    (cmdparseArgv env listenConfig peers n beyond line).All ArgvAccess.InBounds ↔
      UplinkComplete env (parseArgs line) := by
  unfold cmdparseArgv
  generalize hargv : (⟨parseArgs line, beyond⟩ : Argv) = argv
  have hwords : parseArgs line = argv.words := by rw [← hargv]
  rw [hwords]
  dsimp only
  by_cases hargc : argv.argc = 0
  · rw [if_pos hargc]
    refine iff_of_true ((Traced.all_pure _ _).mpr trivial) ?_
    intro cmd name type proto host heq
    rw [Argv.argc, heq] at hargc
    cases hargc
  · have hpos := Nat.pos_of_ne_zero hargc
    rw [if_neg hargc, Traced.all_bind, argv.word_all, uplinkComplete_iff hpos]
    by_cases hcomment : (argv.word 0).val.head? = some (ch '#')
    · rw [if_pos hcomment]
      exact iff_of_true ⟨hpos, (Traced.all_pure _ _).mpr trivial⟩ fun hcmd =>
        absurd hcomment (caseEq_uplink_head hcmd)
    · rw [if_neg hcomment]
      cases hfind : cfgCmds.find? fun c => caseEq (ascii c.1) (argv.word 0).val with
      | none =>
        dsimp only
        rw [argv.print_all]
        refine iff_of_true ⟨hpos, hpos⟩ fun hcmd => ?_
        exact absurd hcmd (List.find?_eq_none.mp hfind ("uplink", .uplink) (by decide))
      | some c =>
        dsimp only
        rw [handleArgv_all_iff, find_uplink_iff hfind, doUplinkArgv_all_iff]
        exact and_iff_right hpos

/-- Without an access outside of the vector, a line does what its words say. -/
theorem cmdparseArgv_val {beyond : Nat → Bytes} {line : Bytes}
    (h : (cmdparseArgv env listenConfig peers n beyond line).All ArgvAccess.InBounds) :
    cmdparse env listenConfig peers n line =
      (cmdparseArgv env listenConfig peers n beyond line).val := by
  unfold cmdparseArgv at h ⊢
  unfold cmdparse
  generalize hargv : (⟨parseArgs line, beyond⟩ : Argv) = argv at h ⊢
  have hwords : parseArgs line = argv.words := by rw [← hargv]
  rw [hwords]
  dsimp only at h ⊢
  by_cases hargc : argv.argc = 0
  · rw [if_pos hargc, List.eq_nil_of_length_eq_zero hargc]
    rfl
  · rw [if_neg hargc, Traced.all_bind] at h
    rw [if_neg hargc, argv.words_eq (Nat.pos_of_ne_zero hargc), Traced.val_bind]
    dsimp only
    by_cases hcomment : (argv.word 0).val.head? = some (ch '#')
    · rw [if_pos hcomment, if_pos hcomment]
      rfl
    · rw [if_neg hcomment] at h
      rw [if_neg hcomment, if_neg hcomment]
      cases hfind : cfgCmds.find? fun c => caseEq (ascii c.1) (argv.word 0).val with
      | none => rfl
      | some c =>
        rw [hfind] at h
        exact handleArgv_val c.2 h.2

/-- A line of an access list stays inside of its words unless it has none, or one that is a
command. -/
theorem aclLoadArgv_all_iff {getaddrinfo : Bytes → Option (List Sockaddr)} {load : Acl × Bool} :
    (aclLoadArgv getaddrinfo load argv).All ArgvAccess.InBounds ↔ AclComplete argv.words := by
  rw [aclLoadArgv, Traced.all_bind, argv.word_all]
  by_cases hargc : argv.argc = 0
  · refine iff_of_false (fun h => absurd h.1 (by omega)) fun h => h.1 ?_
    exact List.eq_nil_of_length_eq_zero hargc
  · have hpos := Nat.pos_of_ne_zero hargc
    have hne : argv.words ≠ [] := List.ne_nil_of_length_pos hpos
    have hone : AclComplete argv.words ↔
        (argv.argc = 1 → aclCommand (argv.word 0).val = none) := by
      constructor
      · intro h hlen
        refine h.2 _ ((argv.words_eq hpos).trans ?_)
        rw [Argv.args_eq_drop, argv.drop_words_eq_nil (by omega)]
      · intro h
        refine ⟨hne, fun command hwords => ?_⟩
        have hnone := h (congrArg List.length hwords)
        rwa [argv.word_val, hwords] at hnone
    rw [hone]
    cases hcommand : aclCommand (argv.word 0).val with
    | none =>
      dsimp only
      rw [argv.print_all]
      exact iff_of_true ⟨hpos, hpos⟩ fun _ => rfl
    | some allow =>
      dsimp only
      rw [Traced.all_bind, argv.word_all]
      constructor
      · rintro ⟨-, hlt, -⟩ hlen
        omega
      · intro h
        have hlt : 1 < argv.argc := by
          refine Nat.lt_of_le_of_ne hpos fun hlen => ?_
          cases h hlen.symm
        refine ⟨hpos, hlt, ?_⟩
        split
        · exact (Traced.all_pure _ _).mpr trivial
        · rw [Traced.all_ite, argv.print_all]
          exact ⟨fun _ => (Traced.all_pure _ _).mpr trivial, fun _ => hlt⟩

/-- Without an access outside of the vector, a line of an access list does what its words say. -/
theorem aclLoadLineArgv_val {getaddrinfo : Bytes → Option (List Sockaddr)} {beyond : Nat → Bytes}
    {load : Acl × Bool} {buf : Bytes}
    (h : (aclLoadLineArgv getaddrinfo beyond load buf).All ArgvAccess.InBounds) :
    aclLoadLine getaddrinfo load buf = (aclLoadLineArgv getaddrinfo beyond load buf).val := by
  unfold aclLoadLineArgv at h ⊢
  unfold aclLoadLine
  dsimp only at h ⊢
  by_cases hnil : aclStrip buf = []
  · rw [if_pos hnil, hnil]
    rfl
  · rw [if_neg hnil, aclLoadArgv_all_iff] at h
    rw [if_neg hnil, if_neg (by simpa using hnil)]
    generalize hargv : (⟨parseArgs (aclStrip buf), beyond⟩ : Argv) = argv at h ⊢
    have hwords : parseArgs (aclStrip buf) = argv.words := by rw [← hargv]
    rw [hwords]
    have hpos : 0 < argv.argc := List.length_pos_of_ne_nil h.1
    have hsplit : argv.words = (argv.word 0).val :: argv.words.drop 1 := argv.words_eq hpos
    rw [hsplit, aclLoadArgv, Traced.val_bind]
    dsimp only
    cases hcommand : aclCommand (argv.word 0).val with
    | none => rfl
    | some allow =>
      have hlt : 1 < argv.argc := by
        refine Nat.lt_of_le_of_ne hpos fun hlen => ?_
        have hone : argv.words = [(argv.word 0).val] := by
          rw [hsplit, argv.drop_words_eq_nil (by omega)]
        rw [h.2 _ hone] at hcommand
        cases hcommand
      rw [argv.drop_words hlt]
      dsimp only
      rw [Traced.val_bind]
      have hargc : (argv.argc != 2) = !(argv.words.drop 2).isEmpty := by
        rw [Bool.eq_iff_iff]
        simp [Argv.argc] at hlt ⊢
        omega
      cases aclAdd getaddrinfo load.1 (argv.word 1).val allow with
      | none => rfl
      | some r =>
        obtain ⟨rc, acl⟩ := r
        dsimp only
        rw [hargc, Traced.val_ite]
        by_cases hrc : rc = 0
        · simp [hrc]
        · simp [hrc, argv.print_val]

theorem aclLoadLineArgv_all_iff {getaddrinfo : Bytes → Option (List Sockaddr)} {beyond : Nat → Bytes}
    {load : Acl × Bool} {buf : Bytes} :
    (aclLoadLineArgv getaddrinfo beyond load buf).All ArgvAccess.InBounds ↔
      (aclStrip buf ≠ [] → AclComplete (parseArgs (aclStrip buf))) := by
  unfold aclLoadLineArgv
  dsimp only
  rw [Traced.all_ite, aclLoadArgv_all_iff]
  exact and_iff_right fun _ => (Traced.all_pure _ _).mpr trivial

/-- The handlers stay inside of the words of a line exactly if it is not an uplink without a
port, and not an access list line without words or with a command only. -/
theorem argv_in_bounds_iff (env : ConfigEnv) (listenConfig : List ListenConfigT)
    (peers : List PeeripConfigT) (n : Nat) (getaddrinfo : Bytes → Option (List Sockaddr))
    (load : Acl × Bool) (beyond : Nat → Bytes) (line : Bytes) :
    ((cmdparseArgv env listenConfig peers n beyond line).All ArgvAccess.InBounds ↔
      UplinkComplete env (parseArgs line)) ∧
    ((aclLoadLineArgv getaddrinfo beyond load line).All ArgvAccess.InBounds ↔
      (aclStrip line ≠ [] → AclComplete (parseArgs (aclStrip line)))) :=
  ⟨cmdparseArgv_all_iff, aclLoadLineArgv_all_iff⟩

end

/-- A server that is built without TLS and without SCTP. -/
private def plainEnv : ConfigEnv where
  useSsl := false
  useSctp := false
  filter :=
    { parseGeometry := fun _ => false
      parseRange := fun _ => false
      inRange := fun _ _ => false
      filterEntrycallLookup := fun _ => false
      filterWxLookup := fun _ => false }
  getaddrinfo _ _ _ := none
  aclLoad _ := none
  random _ := 0
  isDirectory _ := false

/-- An uplink has a host but no port, and a line of an access list is blank or has one word. -/
theorem argv_out_of_bounds :
    ¬(cmdparseArgv plainEnv [] [] 1 (fun _ => []) (ascii "Uplink core full tcp rotate.aprs.net")).All
        ArgvAccess.InBounds ∧
    ¬(aclLoadLineArgv (fun _ => none) (fun _ => []) (aclNew, false) (ascii "  \n")).All ArgvAccess.InBounds ∧
    ¬(aclLoadLineArgv (fun _ => none) (fun _ => []) (aclNew, false) (ascii "allow\n")).All
        ArgvAccess.InBounds := by
  rw [cmdparseArgv_all_iff, aclLoadLineArgv_all_iff, aclLoadLineArgv_all_iff]
  refine ⟨fun h => ?_, fun h => ?_, fun h => ?_⟩
  · refine h (ascii "Uplink") (ascii "core") (ascii "full") (ascii "tcp") (ascii "rotate.aprs.net")
      (by decide +kernel) (by decide +kernel) ⟨?_, ?_⟩ <;> decide +kernel
  · exact (h (by decide +kernel)).1 (by decide +kernel)
  · exact absurd ((h (by decide +kernel)).2 (ascii "allow") (by decide +kernel)) (by decide +kernel)

end Aprsc
