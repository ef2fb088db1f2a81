-- SUMMARY: The log file and its rotation, and for which numbers of files the rotated logs are kept in order.
import Aprsc.Base.Directory
import Aprsc.Base.Runs
import Aprsc.Server.Config

/-!
# Log rotation

`rotate_log` moves the log to a temporary name, opens a new one, gives each of the
rotated files the next number, and then moves the temporary file to the name that is
left in the buffer of the loop. With one file to keep the loop has no round, and the
buffer holds whatever `hmalloc` has returned.
-/

namespace Aprsc

open Directory Runs

/-! ## File names -/

/-- `%d` of a number that is not negative. -/
def printNat (n : Nat) : Bytes := (Nat.toDigits 10 n).map ch

/-- The name that the log has until the other files are moved. -/
def tmpName (logFname : Bytes) : Bytes := logFname ++ ascii ".tmp"

/-- The name of a rotated log. -/
def rotatedName (logFname : Bytes) (i : Nat) : Bytes := logFname ++ ascii "." ++ printNat i

/-! ## Rotation -/

/-- The log file on disk and the offset of its descriptor. -/
structure LogFile where
  files : Dir Bytes Bytes
  offset : Nat

/-- The loop of `rotate_log` from `i` down to 1, with the buffer `r1`. -/
def rotateLoop (logFname : Bytes) : (i : Nat) → (r1 : Bytes) → Dir Bytes Bytes →
    Bytes × Dir Bytes Bytes
  | 0, r1, files => (r1, files)
  | i + 1, _, files =>
      let r1 := rotatedName logFname i
      rotateLoop logFname i r1 (rename r1 (rotatedName logFname (i + 1)) files)

/-- `open` with `O_CREAT`. -/
def openLog (logFname : Bytes) (files : Dir Bytes Bytes) : Dir Bytes Bytes :=
  if (files logFname).isSome then files else Function.update files logFname (some [])

/-- `rotate_log`. The buffer `r1` starts with what its memory holds. -/
def rotateLog (logFname : Bytes) (logRotateSize : Int) (logRotateNum : Nat) (r1 : Bytes)
    (s : LogFile) : LogFile :=
  if (s.offset : Int) < logRotateSize then s
  else
    let files := rename logFname (tmpName logFname) s.files
    let files := openLog logFname files
    let (r1, files) := rotateLoop logFname (logRotateNum - 1) r1 files
    { files := rename (tmpName logFname) r1 files, offset := 0 }

/-- The write of `hlog_write`, at the end of the file. -/
def logWrite (logFname line : Bytes) (s : LogFile) : LogFile :=
  match s.files logFname with
  | none => s
  | some log =>
      { files := Function.update s.files logFname (some (log ++ line))
        offset := (log ++ line).length }

/-! ## Runs -/

/-- What is done with the log: `hlog_write` writes to it, and rotates it when it has
become too long. -/
inductive LogCall where
  | write (line : Bytes)
  | rotate (r1 : Bytes)

/-- What a rotation depends on. -/
structure LogConfig where
  logFname : Bytes
  logRotateSize : Int
  logRotateNum : Nat

/-- A run so far: the files, and the logs that were rotated, the latest first. Before the
first rotation these are the files that are there. -/
structure LogRun where
  file : LogFile
  rotations : Nat
  rotated : Nat → Option Bytes

/-- A log is added to those that were rotated. -/
def addRotated (log : Option Bytes) (rotated : Nat → Option Bytes) : Nat → Option Bytes
  | 0 => log
  | i + 1 => rotated i

def LogRun.step (cfg : LogConfig) (s : LogRun) : LogCall → LogRun
  | .write line => { s with file := logWrite cfg.logFname line s.file }
  | .rotate r1 =>
      let file := rotateLog cfg.logFname cfg.logRotateSize cfg.logRotateNum r1 s.file
      if (s.file.offset : Int) < cfg.logRotateSize then { s with file }
      else
        { file
          rotations := s.rotations + 1
          rotated := addRotated (s.file.files cfg.logFname) s.rotated }

/-- The log is open and nothing is rotated yet. -/
def LogRun.init (logFname : Bytes) (files : Dir Bytes Bytes) : LogRun where
  file := ⟨openLog logFname files, 0⟩
  rotations := 0
  rotated := fun i => files (rotatedName logFname i)

/-- The numbered files are the latest logs, and no log is left under the temporary name. -/
structure LogRun.Kept (cfg : LogConfig) (s : LogRun) : Prop where
  latest : ∀ i < cfg.logRotateNum, ∀ log, s.rotated i = some log →
    s.file.files (rotatedName cfg.logFname i) = some log
  noTmp : 0 < s.rotations → s.file.files (tmpName cfg.logFname) = none

/-! ## Names are distinct -/

theorem ch_toNat {c : Char} (hc : c.isDigit) : Char.ofNat (ch c).toNat = c := by
  have hlt : c.toNat < 256 := by
    simp only [Char.isDigit, Bool.and_eq_true, decide_eq_true_eq] at hc
    exact Nat.lt_of_le_of_lt (show c.toNat ≤ 57 from hc.2) (by omega)
  rw [ch, Nat.toUInt8, UInt8.toNat_ofNat', Nat.mod_eq_of_lt hlt, Char.ofNat_toNat]

theorem printNat_injective : Function.Injective printNat := by
  intro m n h
  have hdigits : ∀ k, (printNat k).map (fun b => Char.ofNat b.toNat) = Nat.toDigits 10 k := by
    intro k
    rw [printNat, List.map_map]
    exact (List.map_congr_left fun c hc =>
      ch_toNat (Nat.isDigit_of_mem_toDigits (by omega) (by omega) hc)).trans (List.map_id _)
  have heq : Nat.toDigits 10 m = Nat.toDigits 10 n := by rw [← hdigits, h, hdigits]
  rw [← @Nat.ofDigitChars_toDigits 10 m (by omega) (by omega), heq,
    Nat.ofDigitChars_toDigits (by omega) (by omega)]

section
variable {logFname : Bytes} {i j : Nat}

theorem rotatedName_injective (logFname : Bytes) : Function.Injective (rotatedName logFname) := by
  intro i j h
  exact printNat_injective (List.append_cancel_left h)

theorem tmpName_ne_rotatedName : tmpName logFname ≠ rotatedName logFname i := by
  intro h
  rw [tmpName, rotatedName, List.append_assoc] at h
  have htail : ascii "tmp" = printNat i := List.tail_eq_of_cons_eq (List.append_cancel_left h)
  have hmem : ch 't' ∈ printNat i := by
    rw [← htail]
    decide
  obtain ⟨c, hc, heq⟩ := List.mem_map.mp hmem
  have hdigit := ch_toNat (Nat.isDigit_of_mem_toDigits (by omega) (by omega) hc)
  rw [heq] at hdigit
  have hnot : (Char.ofNat (ch 't').toNat).isDigit = true := by
    rw [hdigit]
    exact Nat.isDigit_of_mem_toDigits (by omega) (by omega) hc
  exact absurd hnot (by decide)

theorem append_ne_self {s : Bytes} (hs : s ≠ []) : logFname ≠ logFname ++ s := by
  intro h
  exact hs (List.append_cancel_left (h.symm.trans (List.append_nil _).symm))

theorem logFname_ne_tmpName : logFname ≠ tmpName logFname := append_ne_self (by decide)

theorem logFname_ne_rotatedName : logFname ≠ rotatedName logFname i := by
  rw [rotatedName, List.append_assoc]
  exact append_ne_self (List.cons_ne_nil _ _)

end

/-! ## One rotation -/

section
variable {logFname r1 : Bytes} {files : Dir Bytes Bytes} {s : LogFile} {logRotateSize : Int}
  {logRotateNum n i : Nat} {log live : Bytes}

/-- The loop shifts the files, and leaves the name of the first in the buffer if it has
had a round. -/
theorem rotateLoop_eq (logFname : Bytes) (n : Nat) (r1 : Bytes) (files : Dir Bytes Bytes) :
    rotateLoop logFname n r1 files =
      (if n = 0 then r1 else rotatedName logFname 0, shift (rotatedName logFname) n files) := by
  induction n generalizing r1 files with
  | zero => rfl
  | succ n ih =>
    rw [rotateLoop, ih]
    cases n <;> rfl

theorem openLog_self (files : Dir Bytes Bytes) : (openLog logFname files logFname).isSome := by
  unfold openLog
  split
  · assumption
  · rw [Function.update_self]
    rfl

theorem openLog_of_ne {p : Bytes} (hp : p ≠ logFname) : openLog logFname files p = files p := by
  unfold openLog
  split
  · rfl
  · exact Function.update_of_ne hp ..

/-- The files when the loop starts: the log has the temporary name, and a new one is open. -/
def movedLog (logFname : Bytes) (files : Dir Bytes Bytes) : Dir Bytes Bytes :=
  openLog logFname (rename logFname (tmpName logFname) files)

theorem movedLog_tmp (hlive : files logFname = some live) :
    movedLog logFname files (tmpName logFname) = some live := by
  rw [movedLog, openLog_of_ne logFname_ne_tmpName.symm, rename_new hlive]

theorem movedLog_rotated : movedLog logFname files (rotatedName logFname i) =
    files (rotatedName logFname i) := by
  rw [movedLog, openLog_of_ne logFname_ne_rotatedName.symm,
    rename_of_ne logFname_ne_rotatedName.symm tmpName_ne_rotatedName.symm]

theorem rotateLog_files (hsize : ¬ (s.offset : Int) < logRotateSize) :
    (rotateLog logFname logRotateSize logRotateNum r1 s).files =
      rename (tmpName logFname)
        (if logRotateNum - 1 = 0 then r1 else rotatedName logFname 0)
        (shift (rotatedName logFname) (logRotateNum - 1) (movedLog logFname s.files)) := by
  rw [rotateLog, if_neg hsize]
  dsimp only
  rw [rotateLoop_eq, movedLog]

/-- With two files or more the log becomes the first of them, and each of the others but
the last gets the next number. -/
theorem rotateLog_spec (hnum : 2 ≤ logRotateNum) (hsize : ¬ (s.offset : Int) < logRotateSize)
    (hlive : s.files logFname = some live) :
    (rotateLog logFname logRotateSize logRotateNum r1 s).files (rotatedName logFname 0) =
        some live ∧
    (∀ i log, i + 1 < logRotateNum → s.files (rotatedName logFname i) = some log →
      (rotateLog logFname logRotateSize logRotateNum r1 s).files (rotatedName logFname (i + 1)) =
        some log) ∧
    (rotateLog logFname logRotateSize logRotateNum r1 s).files (tmpName logFname) = none := by
  have hinj := rotatedName_injective logFname
  rw [rotateLog_files hsize, if_neg (by omega)]
  refine ⟨?_, fun i log hi hlog => ?_, rename_old tmpName_ne_rotatedName⟩
  · -- The temporary file is not part of the series.
    apply rename_new
    rw [shift_of_ne fun j _ => tmpName_ne_rotatedName, movedLog_tmp hlive]
  · rw [rename_of_ne tmpName_ne_rotatedName.symm (hinj.ne (Nat.succ_ne_zero i))]
    exact shift_succ hinj (by omega) (movedLog_rotated.trans hlog)

/-- The log stays open. -/
theorem rotateLog_log (hnum : 2 ≤ logRotateNum) (hsize : ¬ (s.offset : Int) < logRotateSize) :
    ((rotateLog logFname logRotateSize logRotateNum r1 s).files logFname).isSome := by
  rw [rotateLog_files hsize, if_neg (by omega),
    rename_of_ne logFname_ne_tmpName logFname_ne_rotatedName,
    shift_of_ne fun j _ => logFname_ne_rotatedName]
  exact openLog_self _

/-- With one file the log goes to the name in the buffer, and the first file stays as it
is. -/
theorem rotateLog_one (hsize : ¬ (s.offset : Int) < logRotateSize)
    (hr1 : r1 ≠ rotatedName logFname 0) :
    (rotateLog logFname logRotateSize 1 r1 s).files (rotatedName logFname 0) =
      s.files (rotatedName logFname 0) := by
  rw [rotateLog_files hsize, if_pos rfl, rename_of_ne tmpName_ne_rotatedName.symm hr1.symm]
  exact movedLog_rotated

end

/-! ## Runs -/

section
variable {cfg : LogConfig} {s : LogRun} {files : Dir Bytes Bytes}

/-- The log is open, and the rotated logs are kept. -/
structure LogRun.Inv (cfg : LogConfig) (s : LogRun) : Prop where
  opened : (s.file.files cfg.logFname).isSome
  kept : s.Kept cfg

theorem LogRun.Inv.init (cfg : LogConfig) (files : Dir Bytes Bytes) :
    (LogRun.init cfg.logFname files).Inv cfg where
  opened := openLog_self files
  kept :=
    { latest := fun _ _ _ hlog => (openLog_of_ne logFname_ne_rotatedName.symm).trans hlog
      noTmp := fun h => absurd h (Nat.lt_irrefl 0) }

theorem LogRun.Inv.write (h : s.Inv cfg) (line : Bytes) : (s.step cfg (.write line)).Inv cfg := by
  obtain ⟨log, hlog⟩ := Option.isSome_iff_exists.mp h.opened
  have hfile : logWrite cfg.logFname line s.file =
      ⟨Function.update s.file.files cfg.logFname (some (log ++ line)), (log ++ line).length⟩ := by
    simp only [logWrite, hlog]
  have hothers : ∀ p ≠ cfg.logFname, (logWrite cfg.logFname line s.file).files p = s.file.files p := by
    intro p hp
    rw [hfile]
    exact Function.update_of_ne hp ..
  constructor
  · simp only [step, hfile, Function.update_self, Option.isSome_some]
  · constructor
    · intro i hi log hlog
      exact (hothers _ logFname_ne_rotatedName.symm).trans (h.kept.latest i hi log hlog)
    · intro hpos
      exact (hothers _ logFname_ne_tmpName.symm).trans (h.kept.noTmp hpos)

theorem LogRun.Inv.rotate (hnum : 2 ≤ cfg.logRotateNum) (h : s.Inv cfg) (r1 : Bytes) :
    (s.step cfg (.rotate r1)).Inv cfg := by
  unfold step
  dsimp only
  split
  · rename_i hsize
    have hsame : rotateLog cfg.logFname cfg.logRotateSize cfg.logRotateNum r1 s.file = s.file := by
      rw [rotateLog, if_pos hsize]
    rw [hsame]
    exact h
  · rename_i hsize
    obtain ⟨live, hlive⟩ := Option.isSome_iff_exists.mp h.opened
    obtain ⟨hfirst, hnext, htmp⟩ := @rotateLog_spec _ r1 _ _ _ _ hnum hsize hlive
    refine ⟨rotateLog_log hnum hsize, fun i hi log hlog => ?_, fun _ => htmp⟩
    cases i with
    | zero => exact hfirst.trans (hlive.symm.trans hlog)
    | succ i => exact hnext i log hi (h.kept.latest i (Nat.lt_of_succ_lt hi) log hlog)

theorem LogRun.Inv.step (hnum : 2 ≤ cfg.logRotateNum) (h : s.Inv cfg) (c : LogCall) :
    (s.step cfg c).Inv cfg := by
  cases c with
  | write line => exact h.write line
  | rotate r1 => exact h.rotate hnum r1

/-- A log that has been written and is then rotated with one file to keep: it is not in
that file. -/
theorem one_file_loses (logRotateSize : Int) {logFname r1 line : Bytes}
    (hr1 : r1 ≠ rotatedName logFname 0) (hline : logRotateSize ≤ line.length) :
    ¬ Always (LogRun.step ⟨logFname, logRotateSize, 1⟩) (LogRun.Kept ⟨logFname, logRotateSize, 1⟩)
      (.init logFname fun _ => none) [.write line, .rotate r1] := by
  intro h
  have hkept := h.last
  simp only [run_cons, run_nil] at hkept
  have hopen : openLog logFname (fun _ => none) = Function.update (fun _ => none) logFname (some []) :=
    rfl
  have hwrite : logWrite logFname line ⟨openLog logFname fun _ => none, 0⟩ =
      ⟨Function.update (openLog logFname fun _ => none) logFname (some line), line.length⟩ := by
    rw [logWrite, hopen]
    dsimp only
    rw [Function.update_self]
    rfl
  have hsize : ¬ ((line.length : Nat) : Int) < logRotateSize := by omega
  rw [LogRun.init] at hkept
  simp only [LogRun.step, hwrite, if_neg hsize] at hkept
  have hfirst := hkept.latest 0 Nat.one_pos line (Function.update_self ..)
  dsimp only at hfirst
  rw [rotateLog_one hsize hr1] at hfirst
  dsimp only at hfirst
  rw [Function.update_of_ne logFname_ne_rotatedName.symm, hopen,
    Function.update_of_ne logFname_ne_rotatedName.symm] at hfirst
  cases hfirst

end

/-- The number of files that `do_logrotate` accepts. -/
theorem logRotateNum_pos {args : List Bytes} {size num : Int}
    (h : doLogrotate args = (0, [.var .logRotateSize size, .var .logRotateNum num])) : 1 ≤ num := by
  unfold doLogrotate at h
  split at h
  · split at h
    · cases h
    · split at h
      · cases h
      · cases h
        omega
  · cases h

/-- For every accepted number of files: the rotated logs are kept in every run exactly
when it is at least two. -/
theorem rotated_logs_kept_iff {args : List Bytes} {size num : Int}
    (h : doLogrotate args = (0, [.var .logRotateSize size, .var .logRotateNum num])) :
    (∀ (logFname : Bytes) (files : Dir Bytes Bytes) (calls : List LogCall),
      Always (LogRun.step ⟨logFname, size, num.toNat⟩) (LogRun.Kept ⟨logFname, size, num.toNat⟩)
        (.init logFname files) calls) ↔ 2 ≤ num := by
  have hpos := logRotateNum_pos h
  constructor
  · intro hkept
    by_contra hlt
    obtain rfl : num = 1 := by omega
    have hlen : size ≤ (List.replicate size.toNat (ch ' ')).length := by
      rw [List.length_replicate]
      exact Int.self_le_toNat size
    exact @one_file_loses size _ (ascii "junk") _ (by decide) hlen
      (hkept (ascii "aprsc.log") (fun _ => none) _)
  · intro hnum logFname files calls
    have hnum' : 2 ≤ num.toNat := by omega
    have hstep : ∀ s c, LogRun.Inv ⟨logFname, size, num.toNat⟩ s →
        LogRun.Inv ⟨logFname, size, num.toNat⟩ (s.step ⟨logFname, size, num.toNat⟩ c) :=
      fun s c hs => hs.step hnum' c
    have hinv := always_of_step hstep (LogRun.Inv.init ⟨logFname, size, num.toNat⟩ files) calls
    exact hinv.imp fun s hs => hs.kept

theorem rotated_logs_kept_five :
    (∀ (logFname : Bytes) (files : Dir Bytes Bytes) (calls : List LogCall),
      Always (LogRun.step ⟨logFname, 10485760, (5 : Int).toNat⟩)
        (LogRun.Kept ⟨logFname, 10485760, (5 : Int).toNat⟩) (.init logFname files) calls) ↔
      (2 : Int) ≤ 5 :=
  @rotated_logs_kept_iff [ascii "10", ascii "5"] 10485760 5 rfl

/-- `LogRotate 1 1` is accepted, and a log that is rotated is lost. -/
theorem rotated_log_lost :
    doLogrotate [ascii "1", ascii "1"] =
      (0, [.var .logRotateSize 1048576, .var .logRotateNum 1]) ∧
    ¬ Always (LogRun.step ⟨ascii "aprsc.log", 1048576, 1⟩)
      (LogRun.Kept ⟨ascii "aprsc.log", 1048576, 1⟩) (.init (ascii "aprsc.log") fun _ => none)
      [.write (List.replicate 1048576 (ch ' ')), .rotate (ascii "junk")] := by
  refine ⟨rfl, one_file_loses 1048576 (by decide) ?_⟩
  rw [List.length_replicate]
  rfl

end Aprsc
