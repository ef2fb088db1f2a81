-- SUMMARY: Filters: how a specification is parsed and merged into a chain, and how a packet is evaluated against the chains.
import Aprsc.Server.Tables

/-!
# Filters

A client has four chains of filters: default ones of the listener and those of the user,
each with a chain of negative filters that are marked with a minus sign. A filter on
callsigns holds a set of names. If the last filter of the chain is of the same type, the
names of a new specification are added to it.

Distances, areas and the lookups in the history and in the tables of stations are
functions of the text of a filter and the packet here.
-/

namespace Aprsc

/-! ## Filters and packets -/

/-- `struct filter_refcallsign_t`. The length is that of the callsign. -/
structure RefCallsign where
  callsign : Bytes
  wildCard : Bool
deriving Repr, DecidableEq

inductive MatchEnum where
  | matchExact
  | matchPrefix
  | matchWild
deriving Repr, DecidableEq

/-- What `filter_parse` keeps of a filter besides its type and text. -/
inductive FilterBody where
  /-- Types b, d, e, g, o, p and u. The count is an `int16_t`. -/
  | callsigns (refcallsigns : List RefCallsign) (numnames : Int)
  /-- Type s: the symbols of the primary and the alternate table, and the overlays. -/
  | symbols (pri alt olay : Bytes)
  /-- Types q and t. -/
  | flags (bitflags : UInt16)
  /-- Types a, f, m and r: values that are read from the text. -/
  | geometry
  /-- No type at all. -/
  | empty
deriving Repr, DecidableEq

/-- `FILT_TEXTBUFSIZE`: 512 bytes without the head of the structure. -/
def filtTextbufsize : Nat := 448

/-- The text of a filter: `textbuf`, and what `text` points to on the heap if it does not point
to that. -/
structure FilterText where
  textbuf : Bytes
  heapText : Option Bytes
deriving Repr, DecidableEq

/-- What `text` points to. -/
def FilterText.text (t : FilterText) : Bytes := t.heapText.getD t.textbuf

/-- `struct filter_t`. -/
structure FilterT extends FilterText where
  type : UInt8
  body : FilterBody
deriving Repr, DecidableEq

/-- The packet as filters see it. -/
structure FilterPacket extends Pbuf where
  entrycallLen : Nat
  symbol : UInt8 × UInt8
  /-- `qconst_start` points to a construct or to the element that was added in front of it. -/
  qconst_ne : data.getD qconstStart 0 ≠ ch '*'

/-- What filters use of the rest of the server. -/
structure FilterEnv where
  /-- `sscanf` and the checks of the values of types a, f, m and r. -/
  parseGeometry : Bytes → Bool
  /-- The same for a callsign and a distance after a type filter. -/
  parseRange : Bytes → Bool
  /-- The packet is in the area or range of the filter. -/
  inRange : Bytes → FilterPacket → Bool
  filterEntrycallLookup : FilterPacket → Bool
  filterWxLookup : FilterPacket → Bool

/-- `int16_t`. -/
def int16 (n : Int) : Int := Int.bmod n 65536

/-! ## Sets of callsigns -/

/-- Text between slashes. There is nothing after a slash at the end. -/
def slashParts (s : Bytes) : List Bytes :=
  let parts := s.splitOnP (· == ch '/')
  if (parts.getLastD []).isEmpty then parts.dropLast else parts

/-- A name as it is stored: asterisks are taken out, and the rest is cut. -/
def refCallsign (name : Bytes) : RefCallsign :=
  { callsign := (name.filter (· != ch '*')).take callsignlenMax
    wildCard := name.contains (ch '*') }

/-- `filter_parse_one_callsignset`: the names of a specification. -/
def filterParseOneCallsignset (filt : Bytes) (wildok : MatchEnum) : Option (List RefCallsign) :=
  let names := slashParts ((filt.dropWhile (· != ch '/')).drop 1)
  if names.isEmpty then none
  else if wildok ≠ .matchWild ∧ names.any (·.contains (ch '*')) = true then none
  else some (names.map refCallsign)

/-- A name matches a key. -/
def RefCallsign.isMatch (wildok : MatchEnum) (key : Bytes) (r : RefCallsign) : Bool :=
  let len := r.callsign.length
  let same := caseEq (key.take len) r.callsign
  match wildok with
  | .matchExact => len == key.length && same
  | .matchPrefix => !(len > key.length || len == 0) && same
  | .matchWild => !(len > key.length || len == 0) && same && (r.wildCard || len == key.length)

/-- `filter_match_on_callsignset`. -/
def FilterBody.matchOnCallsignset (wildok : MatchEnum) (f : FilterBody) (key : Bytes) : Bool :=
  match f with
  | .callsigns refcallsigns numnames =>
      (refcallsigns.take numnames.toNat).any (·.isMatch wildok key)
  | _ => false

/-! ## Texts -/

/-- The text of a new filter. -/
def filterText (filt0 : Bytes) : FilterText :=
  if filt0.length < filtTextbufsize then ⟨filt0, none⟩ else ⟨[], some filt0⟩

@[simp] theorem text_filterText (filt0 : Bytes) : (filterText filt0).text = filt0 := by
  unfold filterText
  split <;> rfl

/-- The two texts, a blank and a NUL fit the memory they are written to: the buffer, or as
many bytes from the heap as `text` and `filt0` need. -/
def FilterText.HasRoom (t : FilterText) (filt0 : Bytes) : Prop :=
  t.textbuf.length + filt0.length + 2 ≤
    max filtTextbufsize (t.text.length + filt0.length + 2)

instance (t : FilterText) (filt0 : Bytes) : Decidable (t.HasRoom filt0) :=
  inferInstanceAs (Decidable (_ ≤ _))

/-- A text is appended to that of a filter. What `text` points to is measured, but `textbuf` is
what is written, also where the two are not the same. There is no text after an overrun. -/
def FilterText.extend (t : FilterText) (filt0 : Bytes) : Option FilterText :=
  let i := t.text.length + filt0.length + 2
  if t.HasRoom filt0 then
    if i ≤ filtTextbufsize then some { t with textbuf := t.textbuf ++ ch ' ' :: filt0 }
    else some { t with heapText := some (t.textbuf ++ ch ' ' :: filt0) }
  else none

/-! ## Parsing -/

def qcAnalyticsI : UInt16 := 0x800

/-- The flag of a q construct. -/
def qcFlag (b : UInt8) : Option UInt16 :=
  if b == ch 'C' then some 0x001
  else if b == ch 'X' then some 0x002
  else if b == ch 'U' then some 0x004
  else if b == ch 'o' then some 0x008
  else if b == ch 'O' then some 0x010
  else if b == ch 'S' then some 0x020
  else if b == ch 'r' then some 0x040
  else if b == ch 'R' then some 0x080
  else if b == ch 'Z' then some 0x100
  else if b == ch 'I' then some 0x200
  else none

/-- The flags of a type. -/
def typeFlag (b : UInt8) : Option UInt16 :=
  let b := tolower b
  if b == ch '*' then some (~~~tCwop)
  else if b == ch 'c' then some tCwop
  else if b == ch 'i' then some tItem
  else if b == ch 'm' then some tMessage
  else if b == ch 'n' then some tNws
  else if b == ch 'o' then some tObject
  else if b == ch 'p' then some tPosition
  else if b == ch 'q' then some tQuery
  else if b == ch 's' then some tStatus
  else if b == ch 't' then some tTelemetry
  else if b == ch 'u' then some tUserdef
  else if b == ch 'w' then some tWx
  else none

/-- The flags of the letters up to a slash. -/
def letterFlags (flag : UInt8 → Option UInt16) (s : Bytes) : Option UInt16 :=
  (s.takeWhile (· != ch '/')).foldlM (fun flags b => (flag b).map (flags ||| ·)) 0

/-- A q filter, from the character after its type on. -/
def filterParseOneQ (s : Bytes) : Option FilterBody :=
  if s.head? ≠ some (ch '/') then none
  else do
    let flags ← letterFlags qcFlag (s.drop 1)
    match (s.drop 1).dropWhile (· != ch '/') with
    | [] => some (.flags flags)
    | [_] => some (.flags flags)
    | [_, ana] => if tolower ana = ch 'i' then some (.flags (flags ||| qcAnalyticsI)) else none
    | _ => none

/-- A t filter, from the character after its type on: its type and its flags. -/
def filterParseOneT (env : FilterEnv) (s : Bytes) : Option (UInt8 × FilterBody) :=
  if s.head? ≠ some (ch '/') then none
  else do
    let flags ← letterFlags typeFlag (s.drop 1)
    let rest := (s.drop 1).dropWhile (· != ch '/')
    if rest.length ≤ 1 then some (ch 't', .flags flags)
    else if env.parseRange rest then some (ch 'T', .flags flags)
    else none

/-- `filter_parse_one_s`, from the character after its type on. -/
def filterParseOneS (s : Bytes) : Option FilterBody :=
  if s.head? ≠ some (ch '/') then none
  else
    let pri := (s.drop 1).takeWhile (· != ch '/')
    let rest := ((s.drop 1).dropWhile (· != ch '/')).drop 1
    let alt := rest.takeWhile (· != ch '/')
    let olay := (rest.dropWhile (· != ch '/')).drop 1
    if olay ≠ [] ∧ alt = [] then none else some (.symbols pri alt olay)

/-- The filter of a specification as `filter_parse` stores it when there is no other one
before it. `strchr` finds the NUL of an empty specification, too. -/
def ownFilter (env : FilterEnv) (filt0 : Bytes) : Option FilterT :=
  let filt := if filt0.head? = some (ch '-') then filt0.drop 1 else filt0
  let type := filt.headD 0
  let filter := fun type body =>
    ({ toFilterText := filterText filt0, type, body } : FilterT)
  let names := fun wildok =>
    (filterParseOneCallsignset filt wildok).map fun refs =>
      filter type (.callsigns refs (int16 refs.length))
  let letter := tolower type
  if letter == ch 'a' || letter == ch 'f' || letter == ch 'm' || letter == ch 'r' then
    if env.parseGeometry filt then some (filter type .geometry) else none
  else if letter == ch 'b' || letter == ch 'd' || letter == ch 'e' || letter == ch 'g' ||
      letter == ch 'o' || letter == ch 'u' then names .matchWild
  else if letter == ch 'p' then names .matchPrefix
  else if letter == ch 'q' then
    (filterParseOneQ (filt.drop 1)).map (filter (ch 'q'))
  else if letter == ch 's' then
    (filterParseOneS (filt.drop 1)).map (filter type)
  else if letter == ch 't' then
    (filterParseOneT env (filt.drop 1)).map fun (type, body) => filter type body
  else if type == 0 then some (filter type .empty)
  else none

/-! ## Chains -/

/-- The filters of a client. -/
structure FilterChains where
  negdefaultfilters : List FilterT
  posdefaultfilters : List FilterT
  neguserfilters : List FilterT
  posuserfilters : List FilterT

def FilterChains.init : FilterChains := ⟨[], [], [], []⟩

/-- The chain of a specification. -/
inductive ChainId where
  | negdefault
  | posdefault
  | neguser
  | posuser
deriving Repr, DecidableEq

def FilterChains.get (c : FilterChains) : ChainId → List FilterT
  | .negdefault => c.negdefaultfilters
  | .posdefault => c.posdefaultfilters
  | .neguser => c.neguserfilters
  | .posuser => c.posuserfilters

def FilterChains.set (c : FilterChains) (id : ChainId) (fs : List FilterT) : FilterChains :=
  match id with
  | .negdefault => { c with negdefaultfilters := fs }
  | .posdefault => { c with posdefaultfilters := fs }
  | .neguser => { c with neguserfilters := fs }
  | .posuser => { c with posuserfilters := fs }

/-- A call of `filter_parse`. -/
structure FilterCall where
  filt : Bytes
  isUserFilter : Bool
  /-- There is a cell for a new filter. -/
  cell : Bool

def FilterCall.chain (call : FilterCall) : ChainId :=
  match call.isUserFilter, call.filt.head? == some (ch '-') with
  | false, true => .negdefault
  | false, false => .posdefault
  | true, true => .neguser
  | true, false => .posuser

/-- What becomes of a chain with a new filter. -/
inductive AppendResult where
  | chain (fs : List FilterT)
  /-- There is no memory for a cell. -/
  | noCell
  /-- A negative count makes `hrealloc` fail or the names go to memory in front of the
  array, or the text is written beyond the end of its memory: what comes then is not known. -/
  | fault

/-- The last filter of the chain gets the names and the text of a specification. -/
def extendFilter (ff : FilterT) (refs : List RefCallsign) (filt0 : Bytes) : Option FilterT :=
  match ff.body with
  | .callsigns refcallsigns numnames =>
      if numnames < 0 then none
      else (ff.toFilterText.extend filt0).map fun text =>
        { ff with
          toFilterText := text
          body := .callsigns (refcallsigns.take numnames.toNat ++ refs)
            (int16 (numnames + refs.length)) }
  | _ => none

/-- The end of a chain in `filter_parse`: a set of callsigns extends a filter of the same
type, and every other filter is linked to the tail. -/
def appendFilter (cell : Bool) (fs : List FilterT) (f : FilterT) : AppendResult :=
  match fs.getLast?, f.body with
  | some ff, .callsigns refs _ =>
      if ff.type = f.type then
        match extendFilter ff refs f.text with
        | some ff => .chain (fs.dropLast ++ [ff])
        | none => .fault
      else if cell then .chain (fs ++ [f]) else .noCell
  | _, _ => if cell then .chain (fs ++ [f]) else .noCell

/-- The filters of a client and the specifications it has accepted. -/
structure FilterState where
  chains : FilterChains
  accepted : List FilterCall

def FilterState.init : FilterState := ⟨.init, []⟩

/-- `filter_parse`, on a client that may have filters of the user or may not. There is no
state after a fault. -/
def filterParse (env : FilterEnv) (userfilterok : Bool) (s : FilterState) (call : FilterCall) :
    Option FilterState :=
  if call.isUserFilter && !userfilterok then some s
  else
    match ownFilter env call.filt with
    | none => some s
    | some f =>
        match appendFilter call.cell (s.chains.get call.chain) f with
        | .fault => none
        | .noCell => some s
        | .chain fs =>
            some { chains := s.chains.set call.chain fs, accepted := s.accepted ++ [call] }

/-! ## Evaluation -/

/-- Part of the packet. -/
def FilterPacket.part (pb : FilterPacket) (start len : Nat) : Bytes := (pb.data.drop start).take len

/-- `filter_process_one_b` and `filter_process_one_p`: the source, and the innermost one
of a third-party packet. -/
def filterProcessSource (pb : FilterPacket) (isMatch : Bytes → Bool) : Bool :=
  let r := isMatch (pb.part 0 (min pb.srccallEnd callsignlenMax))
  if !r && pb.srcname ≠ 0 && pb.packettype &&& (tObject ||| tItem) = 0 then
    isMatch (pb.part pb.srcname (min pb.srcnameLen callsignlenMax))
  else r

/-- The length of the callsign at `d`, up to a comma, to `q` or to the length of a
callsign and an asterisk. -/
def viaLength (pb : FilterPacket) (d : Nat) : Nat :=
  ((pb.part d (min (callsignlenMax + 1) (pb.qconstStart - d))).takeWhile (· != comma)).length

/-- The start of the next callsign. -/
def viaStart (pb : FilterPacket) (d : Nat) : Nat :=
  if pb.data.getD d 0 == comma then d + 1 else d

/-- The last loop of `filter_process_one_d`: one of the next `n` callsigns has an asterisk. -/
def digiStar (pb : FilterPacket) : (n : Nat) → (d : Nat) → Bool
  | 0, _ => false
  | n + 1, d =>
      if d < pb.qconstStart - 1 then
        let d := viaStart pb d
        let i := viaLength pb d
        pb.data.getD (d + i - 1) 0 == ch '*' || digiStar pb n (d + i)
      else false

/-- `filter_process_one_d`: the first of the next `n` callsigns that matches, and whether
it or one of those after it has an asterisk. -/
def digiMatch (pb : FilterPacket) (isMatch : Bytes → Bool) : (n : Nat) → (d : Nat) → Bool
  | 0, _ => false
  | n + 1, d =>
      if d < pb.qconstStart - 1 then
        let d := viaStart pb d
        let i := viaLength pb d
        -- A trailing asterisk is not part of the callsign.
        let cl := min (if pb.data.getD (d + i - 1) 0 == ch '*' then i - 1 else i) callsignlenMax
        if isMatch (pb.part d cl) then
          pb.data.getD (d + cl) 0 == ch '*' || digiStar pb n (d + i)
        else digiMatch pb isMatch n (d + i)
      else false

def filterProcessOneD (pb : FilterPacket) (isMatch : Bytes → Bool) : Bool :=
  digiMatch pb isMatch 10 (pb.srccallEnd + 1 + pb.dstcallLen + 1)

def filterProcessOneE (pb : FilterPacket) (isMatch : Bytes → Bool) : Bool :=
  if pb.entrycallLen < 1 then false else isMatch (pb.part (pb.qconstStart + 4) pb.entrycallLen)

def filterProcessOneG (pb : FilterPacket) (isMatch : Bytes → Bool) : Bool :=
  if pb.packettype &&& tMessage = 0 then false
  else if pb.dstnameLen < 1 then false
  else isMatch (pb.part (pb.dstname.getD 0) pb.dstnameLen)

def filterProcessOneO (pb : FilterPacket) (isMatch : Bytes → Bool) : Bool :=
  if pb.packettype &&& (tObject ||| tItem) = 0 then false
  else if pb.srcnameLen < 1 ∨ pb.srcnameLen > callsignlenMax then false
  else isMatch (pb.part pb.srcname pb.srcnameLen)

def filterProcessOneU (pb : FilterPacket) (isMatch : Bytes → Bool) : Bool :=
  isMatch (pb.part (pb.srccallEnd + 1) (min pb.dstcallLen callsignlenMax))

def filterProcessOneQ (env : FilterEnv) (pb : FilterPacket) (bitflags : UInt16) : Bool :=
  match qcFlag (pb.data.getD (pb.qconstStart + 2) 0) with
  | none => false
  | some mask =>
      bitflags &&& mask ≠ 0 ||
        (bitflags &&& qcAnalyticsI ≠ 0 && env.filterEntrycallLookup pb)

def filterProcessOneS (pb : FilterPacket) (pri alt olay : Bytes) : Bool :=
  let symtable := if pb.symbol.1 = ch '/' then ch '/' else ch '\\'
  let symcode := pb.symbol.2
  let symolay := if pb.symbol.1 ≠ symtable then pb.symbol.1 else 0
  if symtable = ch '/' ∧ symcode ∈ pri then true
  else if olay ≠ [] then olay.contains symolay && alt.contains symcode
  else symtable == ch '\\' && alt.contains symcode

def filterProcessOneT (env : FilterEnv) (pb : FilterPacket) (f : FilterT) (bitflags : UInt16) :
    Bool :=
  let rc := pb.packettype &&& bitflags ≠ 0 ||
    (bitflags &&& tWx ≠ 0 && pb.flags &&& fHaspos ≠ 0 && env.filterWxLookup pb)
  if rc && f.type = ch 'T' then env.inRange f.text pb else rc

/-- The evaluation of a set of callsigns under the type of the filter. -/
def filterProcessSet (pb : FilterPacket) (letter : UInt8) (body : FilterBody) : Bool :=
  if letter = ch 'p' then filterProcessSource pb (body.matchOnCallsignset .matchPrefix)
  else
    let isMatch := body.matchOnCallsignset .matchWild
    if letter = ch 'b' then filterProcessSource pb isMatch
    else if letter = ch 'd' then filterProcessOneD pb isMatch
    else if letter = ch 'e' then filterProcessOneE pb isMatch
    else if letter = ch 'g' then filterProcessOneG pb isMatch
    else if letter = ch 'o' then filterProcessOneO pb isMatch
    else filterProcessOneU pb isMatch

/-- `filter_process_one`: a match, none, or no such filter. -/
def filterProcessOne (env : FilterEnv) (pb : FilterPacket) (f : FilterT) : Int :=
  let rc := fun (b : Bool) => if b then 1 else 0
  match f.body with
  | .callsigns .. => rc (filterProcessSet pb (tolower f.type) f.body)
  | .symbols pri alt olay => rc (filterProcessOneS pb pri alt olay)
  | .flags bitflags =>
      rc (if f.type = ch 'q' then filterProcessOneQ env pb bitflags
        else filterProcessOneT env pb f bitflags)
  | .geometry => rc (env.inRange f.text pb)
  | .empty => -1

/-- `client_bad_filter_notify`: the client is told once. `printed` is what `client_printf`
returns. -/
def clientBadFilterNotify (printed : Int) (warned : Bool) : Int := if !warned then printed else 0

/-- The loop over the filters of the user: what the function returns, and whether the
client was warned. -/
def userLoop (env : FilterEnv) (pb : FilterPacket) (printed : Int) (hit : Int → Int) :
    (warned : Bool) → List FilterT → Option Int × Bool
  | warned, [] => (none, warned)
  | warned, f :: fs =>
      let rc := filterProcessOne env pb f
      if rc < 0 then
        let rc := clientBadFilterNotify printed warned
        if rc < 0 then (some rc, true)
        else if rc > 0 then (some (hit rc), true)
        else userLoop env pb printed hit true fs
      else if rc > 0 then (some (hit rc), warned)
      else userLoop env pb printed hit warned fs

/-- A filter of the chain matches. -/
def anyMatch (env : FilterEnv) (pb : FilterPacket) (fs : List FilterT) : Bool :=
  fs.any fun f => filterProcessOne env pb f > 0

/-- `filter_process` below its special cases for igates. -/
def filterProcess (env : FilterEnv) (pb : FilterPacket) (printed : Int) (warned : Bool)
    (c : FilterChains) : Int :=
  if anyMatch env pb c.negdefaultfilters then 0
  else if anyMatch env pb c.posdefaultfilters then 1
  else
    match userLoop env pb printed (fun _ => 0) warned c.neguserfilters with
    | (some rc, _) => rc
    | (none, warned) =>
        match userLoop env pb printed id warned c.posuserfilters with
        | (some rc, _) => rc
        | (none, _) => 0

end Aprsc
