-- SUMMARY: `parse_aprs` keeps the flags that decide where a packet is sent.
import Aprsc.ParseAprs.Body

/-!
# The flags of a packet while it is parsed

Whether a packet came from an upstream or a downstream connection, and whether it is
marked as a duplicate, is known before its payload is parsed. The parsers only ever add
that it has a position.
-/

namespace Aprsc

/-- The flags that `process_outgoing` looks at. -/
def routeFlags : UInt16 := fDupe ||| fFromUpstr ||| fFromDownstr

/-- The parsers of positions, objects, items and telemetry set no flag but `F_HASPOS`. -/
def AprsLeaves.OnlySetPosition (leaf : AprsLeaves) : Prop :=
  ∀ kind p f, (leaf kind p f).2.flags = f.flags ∨ (leaf kind p f).2.flags = f.flags ||| fHaspos

/-- The two flag words say the same about where the packet goes. -/
def SameRoute (flags flags' : UInt16) : Prop := flags' &&& routeFlags = flags &&& routeFlags

namespace SameRoute

variable {a b c : UInt16}

theorem refl (a : UInt16) : SameRoute a a := rfl

theorem trans (h : SameRoute a b) (h' : SameRoute b c) : SameRoute a c := Eq.trans h' h

theorem or_flag {flag : UInt16} (hflag : flag &&& routeFlags = 0) (a : UInt16) :
    SameRoute a (a ||| flag) := by
  unfold SameRoute
  have hbits : (flag.toBitVec &&& routeFlags.toBitVec) = 0#16 := congrArg UInt16.toBitVec hflag
  apply UInt16.toBitVec_inj.mp
  simp only [UInt16.toBitVec_and, UInt16.toBitVec_or]
  rw [BitVec.and_comm, BitVec.and_or_distrib_left]
  rw [BitVec.and_comm _ flag.toBitVec, hbits, BitVec.or_zero, BitVec.and_comm]

theorem of_leaf {leaf : AprsLeaves} (hleaf : leaf.OnlySetPosition) (kind : AprsLeaf) (p : Int)
    (f : AprsFields) : SameRoute f.flags (leaf kind p f).2.flags := by
  cases hleaf kind p f with
  | inl h => rw [h]; exact .refl _
  | inr h => rw [h]; exact .or_flag (by decide) _

/-- Both branches keep the route. -/
theorem ite {p : Prop} [Decidable p] {x y : Traced Access (Int × AprsFields)}
    (hx : p → SameRoute a x.val.2.flags) (hy : ¬p → SameRoute a y.val.2.flags) :
    SameRoute a (if p then x else y).val.2.flags := by
  split
  next h => exact hx h
  next h => exact hy h

/-- One of the flags, by itself. -/
theorem flag_eq {flag : UInt16} (h : SameRoute a b) (hflag : routeFlags &&& flag = flag) :
    b &&& flag = a &&& flag := by
  rw [← hflag, ← UInt16.and_assoc, ← UInt16.and_assoc]
  exact congrArg (· &&& flag) h

end SameRoute

section

variable {leaf : AprsLeaves} (hleaf : leaf.OnlySetPosition) (m : Area UInt8)
include hleaf

theorem parsePosition_flags (p bodyEnd : Int) (f : AprsFields) :
    SameRoute f.flags (parsePosition leaf m p bodyEnd f).val.2.flags := by
  simp only [parsePosition, Traced.val_bind, Traced.val_ite, Traced.val_pure]
  split
  next =>
    split
    next => exact .of_leaf hleaf _ _ _
    next => exact .refl _
  next =>
    split
    next =>
      split
      next => exact .of_leaf hleaf _ _ _
      next => exact .refl _
    next => exact .refl _

theorem parsePositionPacket_flags (packettype : UInt8) (body bodyEnd : Int) (f : AprsFields) :
    SameRoute f.flags (parsePositionPacket leaf m packettype body bodyEnd f).val.2.flags := by
  simp only [parsePositionPacket, Traced.val_ite, Traced.val_pure]
  split
  next => exact .refl _
  next => exact parsePosition_flags hleaf m _ bodyEnd (f.mark tPosition)

theorem lookForPosition_flags (body bodyEnd : Int) (f : AprsFields) :
    SameRoute f.flags (lookForPosition leaf m body bodyEnd f).val.2.flags := by
  simp only [lookForPosition, Traced.val_bind]
  split
  next => exact .refl _
  next p _ =>
    rw [Traced.val_ite]
    split
    next => exact parsePosition_flags hleaf m p bodyEnd f
    next => exact .refl _

omit hleaf in
theorem preparseAprsMessage_flags (body bodyLen : Int) (f : AprsFields) :
    (preparseAprsMessage m body bodyLen f).val.2.flags = f.flags := by
  simp only [preparseAprsMessage, Traced.val_bind, Traced.val_pure]
  split
  next => split <;> rfl
  next => split <;> rfl

theorem parseAprsType_flags (packetLen paclen infoStart : Int) (packettype : UInt8)
    (f : AprsFields) :
    SameRoute f.flags (parseAprsType leaf m packetLen paclen infoStart packettype f).val.2.flags := by
  have hpure : ∀ (p : Prop) [Decidable p] (kind : AprsLeaf) (body : Int) (f' : AprsFields),
      f'.flags = f.flags →
      SameRoute f.flags (if p then leaf kind body f' else (0, f)).2.flags := by
    intro p _ kind body f' hf'
    split
    next => exact hf' ▸ .of_leaf hleaf kind body f'
    next => exact .refl _
  have hpos := parsePositionPacket_flags hleaf m packettype (infoStart + 1) (packetLen - 2) f
  have hlook := lookForPosition_flags hleaf m (infoStart + 1) (packetLen - 2) f
  refine .ite (fun _ => hpure _ _ _ _ rfl) fun _ => ?_
  refine .ite (fun _ => .ite (fun _ => .refl _) fun _ => hpos) fun _ => ?_
  refine .ite (fun _ => hpos) fun _ => ?_
  refine .ite (fun _ => hpure _ _ _ _ rfl) fun _ => ?_
  refine .ite (fun _ => .ite (fun _ => ?_) fun _ => .refl _) fun _ => ?_
  · rw [preparseAprsMessage_flags]
    exact .refl _
  refine .ite (fun _ => hpure _ _ _ _ rfl) fun _ => ?_
  refine .ite (fun _ => .refl _) fun _ => ?_
  refine .ite (fun _ => .refl _) fun _ => ?_
  refine .ite (fun _ => .refl _) fun _ => ?_
  refine .ite (fun _ => hpure _ _ _ _ rfl) fun _ => ?_
  refine .ite (fun _ => .ite (fun _ => .refl _) fun _ => hlook) fun _ => ?_
  refine .ite (fun _ => hpure _ _ _ _ rfl) fun _ => ?_
  refine .ite (fun _ => .refl _) fun _ => ?_
  exact .ite (fun _ => .refl _) fun _ => hlook

theorem parseAprsBody_flags (packetLen paclen : Int) (fuel : Nat) (infoStart : Int)
    (f : AprsFields) (r : Int × AprsFields)
    (h : (parseAprsBody leaf m packetLen paclen fuel infoStart f).val = some r) :
    SameRoute f.flags r.2.flags := by
  induction fuel generalizing infoStart f with
  | zero => cases h
  | succ fuel ih =>
    simp only [parseAprsBody, Traced.val_ite, Traced.val_bind, Traced.val_pure] at h
    split at h
    · cases h
      exact .refl _
    split at h
    · -- the frame inside is parsed with the same flags
      split at h
      next =>
        cases h
        exact .refl _
      next =>
        cases h
        exact .refl _
      next =>
        have hframe := ih _ _ h
        exact hframe
    · cases h
      exact parseAprsType_flags hleaf m packetLen paclen infoStart _ f

/-- `parse_aprs` keeps the flags that decide where the packet goes. -/
theorem parseAprs_flags (packetLen infoStart : Int) (f : AprsFields) (r : Int × AprsFields)
    (h : (parseAprs leaf m packetLen infoStart f).val = some r) : SameRoute f.flags r.2.flags := by
  simp only [parseAprs, Traced.val_bind] at h
  have hflags := parseAprsBody_flags hleaf m _ _ _ _ _ r h
  split at hflags
  next => exact hflags
  next => exact hflags

end

end Aprsc
