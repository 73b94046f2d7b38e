import Yfs.Hdfs.Hrpc
import Yfs.Hdfs.Nodes
import Yfs.Lib.Marshal

/-! A connection to the namenode: `worker` and `HandleRpc`, which read requests from a descriptor and
write the answers to it. A frame that does not come in one piece ends the connection. -/
namespace Yfs.Hdfs
open Yfs.Lib Yfs.Client

namespace Connection

def ascii (s : String) : Str := s.toList.map fun c => c.toNat.toUInt8

def toLower (c : UInt8) : UInt8 := if 65 ≤ c ∧ c ≤ 90 then c + 32 else c

/-- `strcasecmp` is 0. -/
def sameName (a b : Str) : Bool := decide (a.map toLower = b.map toLower)

inductive Method where
  | getFileInfo | getListing | getBlockLocations | registerDatanode | getServerDefaults | create | complete
  | addBlock | renewLease | rename | delete | mkdirs | getFsStats | setSafeMode | getDatanodeReport
  | datanodeHeartbeat
  deriving DecidableEq

def Method.name : Method → Str
  | .getFileInfo => ascii "GetFileInfo"
  | .getListing => ascii "GetListing"
  | .getBlockLocations => ascii "GetBlockLocations"
  | .registerDatanode => ascii "RegisterDatanode"
  | .getServerDefaults => ascii "GetServerDefaults"
  | .create => ascii "Create"
  | .complete => ascii "Complete"
  | .addBlock => ascii "AddBlock"
  | .renewLease => ascii "RenewLease"
  | .rename => ascii "Rename"
  | .delete => ascii "Delete"
  | .mkdirs => ascii "Mkdirs"
  | .getFsStats => ascii "GetFsStats"
  | .setSafeMode => ascii "SetSafeMode"
  | .getDatanodeReport => ascii "GetDatanodeReport"
  | .datanodeHeartbeat => ascii "DatanodeHeartbeat"

def Method.all : List Method :=
  [.getFileInfo, .getListing, .getBlockLocations, .registerDatanode, .getServerDefaults, .create, .complete,
    .addBlock, .renewLease, .rename, .delete, .mkdirs, .getFsStats, .setSafeMode, .getDatanodeReport,
    .datanodeHeartbeat]

structure RpcRequestHeader where
  callid : Int32
  clientid : Str
  retrycount : Int32 := -1
  deriving DecidableEq

inductive RpcStatus where
  | success | error
  deriving DecidableEq

inductive RpcErrorCode where
  | errorNoSuchMethod
  deriving DecidableEq

structure RpcResponseHeader where
  callid : UInt32
  status : RpcStatus
  serveripcversionnum : UInt32 := 9
  clientid : Str
  retrycount : Int32
  errormsg : Option Str := none
  errordetail : Option RpcErrorCode := none
  deriving DecidableEq

inductive Completion (R : Type) where
  | returned (resp : R)
  | hdfsException (what : Str)
  | exception

/-- The methods of the namenode, with the messages that they take and return. -/
structure Service (σ : Type) where
  Req : Method → Type
  Resp : Method → Type
  rpcHeader : Codec RpcRequestHeader
  header : Codec Str
  req : ∀ m, Codec (Req m)
  rpcResponse : Codec RpcResponseHeader
  resp : ∀ m, Codec (Resp m)
  pb : ∀ m, Req m → σ → σ × Completion (Resp m)

/-- Where strings lie in memory, what the parser finds outside of them, and what a shift gives that is too
wide for an `int`. -/
structure Memory where
  wide : UInt8 → ℕ → UInt32
  base : Str → UInt64
  beyond : (T : Type) → ℕ → Int32 → Option T
  fits : ∀ l : Str, l.length < 2 ^ 32 → (base l).toNat + l.length < 2 ^ 64

/-- `ReadDelimited`; there is no string that is longer than the memory. -/
def Memory.read {T : Type} (mem : Memory) (c : Codec T) (buf : Str) : Delimited T :=
  if h : (mem.base buf).toNat + buf.length < 2 ^ 64 ∧ buf.length < 2 ^ 63 then
    (readDelimited mem.wide c.parse (mem.beyond T) ⟨mem.base buf, buf, h.1, h.2⟩).2
  else .thrown

/-- `HandleRpc` returns 0 or -1, or the process ends with an exception that nobody catches. -/
inductive Next where
  | again | stop | dead
  deriving DecidableEq

def successHeader (h : RpcRequestHeader) : RpcResponseHeader :=
  { callid := h.callid.toUInt32, status := .success, clientid := h.clientid, retrycount := h.retrycount }

def errorHeader (h : RpcRequestHeader) (errormsg : Str) : RpcResponseHeader :=
  { callid := h.callid.toUInt32, status := .error, clientid := h.clientid, retrycount := h.retrycount,
    errormsg := some errormsg }

def noSuchMethod (h : RpcRequestHeader) : RpcResponseHeader :=
  { errorHeader h (ascii "Method not supported") with errordetail := some .errorNoSuchMethod }

section
variable {σ : Type} (mem : Memory) (sv : Service σ)

structure Answer where
  header : RpcResponseHeader
  resp : Option ((m : Method) × sv.Resp m)

variable {sv} in
def Answer.messages (a : Answer sv) : List Message :=
  ⟨_, sv.rpcResponse, a.header⟩ :: (a.resp.map fun r => ⟨_, sv.resp r.1, r.2⟩).toList

/-- `TRY`, once the name is found. -/
def tryMethod (m : Method) (h : RpcRequestHeader) (buf : Str) (s : σ) : Next × σ × Str :=
  match mem.read (sv.req m) buf with
  | .refused => (.stop, s, [])
  | .thrown => (.dead, s, [])
  | .accepted req _ =>
    match sv.pb m req s with
    | (s, .returned resp) =>
      (.again, s, hrpcWrite [⟨_, sv.rpcResponse, successHeader h⟩, ⟨_, sv.resp m, resp⟩])
    | (s, .hdfsException what) => (.again, s, hrpcWrite [⟨_, sv.rpcResponse, errorHeader h what⟩])
    | (s, .exception) => (.dead, s, [])

/-- `HandleRpc` behind the reading of a frame. -/
def handleFrame (frame : Str) (s : σ) : Next × σ × Str :=
  match mem.read sv.rpcHeader frame with
  | .refused => (.stop, s, [])
  | .thrown => (.dead, s, [])
  | .accepted h buf =>
    if h.callid < 0 then (.again, s, [])
    else match mem.read sv.header buf with
      | .refused => (.stop, s, [])
      | .thrown => (.dead, s, [])
      | .accepted name buf =>
        match Method.all.find? fun m => sameName (cStr name) m.name with
        | some m => tryMethod mem sv m h buf s
        | none => (.stop, s, hrpcWrite [⟨_, sv.rpcResponse, noSuchMethod h⟩])

private theorem length_lt_of_hrpcRead {fd fd' : Fd} {frame : Str} (h : hrpcRead fd = some (frame, fd')) :
    fd'.stream.length < fd.stream.length := by
  rw [hrpcRead] at h
  dsimp only [Fd.read] at h
  split_ifs at h with hfour hbody
  cases h
  rw [not_not, List.length_take] at hfour
  rw [List.length_drop, List.length_drop]
  omega

/-- The loop of `worker`: how it ends, the namenode then, and what was written. -/
def handleRpcs (s : σ) (fd : Fd) : Next × σ × Str :=
  match _hread : hrpcRead fd with
  | none => (.stop, s, [])
  | some (frame, fd) =>
    match handleFrame mem sv frame s with
    | (.again, s, out) =>
      let r := handleRpcs s fd
      (r.1, r.2.1, out ++ r.2.2)
    | r => r
  termination_by fd.stream.length
  decreasing_by exact length_lt_of_hrpcRead _hread

/-- `ReadHeader`: one `read` of seven bytes. -/
def readHeader (fd : Fd) : Option Fd :=
  let (buf, fd) := fd.read 7
  if buf = ascii "hrpc" ++ [9, 0, 0] then some fd else none

def worker (s : σ) (fd : Fd) : Next × σ × Str :=
  match readHeader fd with
  | none => (.stop, s, [])
  | some fd => handleRpcs mem sv s fd

/-- A request as a client makes it. The case of the letters in the name does not matter. -/
inductive Request where
  | call (rpcHeader : RpcRequestHeader) (methodname : Str) (m : Method)
      (named : sameName (cStr methodname) m.name = true) (req : sv.Req m)
  | unknown (rpcHeader : RpcRequestHeader) (methodname : Str)
      (unnamed : ∀ m : Method, sameName (cStr methodname) m.name = false) (args : Message)

section
variable {sv}

def Request.rpcHeader : Request sv → RpcRequestHeader
  | .call h _ _ _ _ => h
  | .unknown h _ _ _ => h

def Request.messages : Request sv → List Message
  | .call h name m _ req => [⟨_, sv.rpcHeader, h⟩, ⟨_, sv.header, name⟩, ⟨_, sv.req m, req⟩]
  | .unknown h name _ args => [⟨_, sv.rpcHeader, h⟩, ⟨_, sv.header, name⟩, args]

end

variable {sv} in
def Completion.answer (h : RpcRequestHeader) {m : Method} : Completion (sv.Resp m) → Option (Answer sv)
  | .returned resp => some ⟨successHeader h, some ⟨m, resp⟩⟩
  | .hdfsException what => some ⟨errorHeader h what, none⟩
  | .exception => none

/-- The requests without a connection between: how the namenode goes on, its state, and the answers. It
performs them one after the other. One with a negative id is skipped, behind one that has no method nothing
is performed, and an exception that is not an `HdfsException` ends the process. -/
def perform (s : σ) : List (Request sv) → Next × σ × List (Answer sv)
  | [] => (.stop, s, [])
  | .unknown h _ _ _ :: rs =>
    if h.callid < 0 then perform s rs else (.stop, s, [⟨noSuchMethod h, none⟩])
  | .call h _ m _ req :: rs =>
    if h.callid < 0 then perform s rs
    else match (sv.pb m req s).2.answer h with
      | none => (.dead, (sv.pb m req s).1, [])
      | some a =>
        let r := perform (sv.pb m req s).1 rs
        (r.1, r.2.1, a :: r.2.2)

def receive : List (Request sv) → Fd → List (Answer sv)
  | [], _ => []
  | r :: rs, fd =>
    if r.rpcHeader.callid < 0 then receive rs fd
    else match hrpcRead fd with
      | none => []
      | some (frame, fd) =>
        match mem.read sv.rpcResponse frame with
        | .accepted h buf =>
          if h.status = .success then
            match r with
            | .call _ _ m _ _ =>
              match mem.read (sv.resp m) buf with
              | .accepted resp _ => ⟨h, some ⟨m, resp⟩⟩ :: receive rs fd
              | _ => []
            | .unknown _ _ _ _ => []
          else ⟨h, none⟩ :: receive rs fd
        | _ => []

end

def frames (l : List (List Message)) : Str := l.flatMap hrpcWrite

/-- The number of frames up to the first that a `read` does not find complete. -/
def arrived : List (List Message) → (ℕ → ℕ) → ℕ
  | [], _ => 0
  | ms :: l, ready =>
    if 4 ≤ ready 0 ∧ (payload ms).length ≤ ready 1 then arrived l (fun k => ready (k + 2)) + 1 else 0

def Whole (l : List (List Message)) (ready : ℕ → ℕ) : Prop :=
  ∀ k, 4 ≤ ready k ∧ ∀ ms ∈ l, (payload ms).length ≤ ready k

theorem arrived_of_whole {l : List (List Message)} {ready : ℕ → ℕ} (h : Whole l ready) :
    arrived l ready = l.length := by
  induction l generalizing ready with
  | nil => rfl
  | cons ms l ih =>
    have hrest : Whole l fun k => ready (k + 2) :=
      fun k => ⟨(h (k + 2)).1, fun ms' hms => (h (k + 2)).2 ms' (List.mem_cons_of_mem ms hms)⟩
    rw [arrived, if_pos ⟨(h 0).1, (h 1).2 ms List.mem_cons_self⟩, ih hrest, List.length_cons]

theorem frames_cons (ms : List Message) (l : List (List Message)) :
    frames (ms :: l) = hrpcWrite ms ++ frames l := List.flatMap_cons

section
variable {σ : Type} {sv : Service σ} {m : Message} {ms : List Message} {s s' : σ} {r : Request sv}
variable {rs : List (Request sv)} {h : RpcRequestHeader} {ready : ℕ → ℕ}

theorem read_payload (mem : Memory) (h : Framable (m :: ms)) :
    mem.read m.codec (payload (m :: ms)) = .accepted m.value (payload ms) := by
  have hfits := mem.fits _ h.2
  have hshort : (payload (m :: ms)).length < 2 ^ 63 := h.2.trans (by decide)
  rw [Memory.read, dif_pos ⟨hfits, hshort⟩]
  exact readDelimited_delimited (h.1 m List.mem_cons_self) payload_cons _ _

private theorem find_name (m : Method) : (Method.all.find? fun m' => sameName m.name m'.name) = some m := by
  cases m <;> decide

private theorem find_of_sameName {name : Str} {m : Method} (h : sameName name m.name = true) :
    (Method.all.find? fun m' => sameName name m'.name) = some m := by
  have hlower : name.map toLower = m.name.map toLower := of_decide_eq_true h
  rw [← find_name m]
  congr 1
  funext m'
  rw [sameName, sameName, hlower]

theorem handleFrame_skipped (mem : Memory) (hsend : Framable r.messages) (hid : r.rpcHeader.callid < 0)
    (s : σ) : handleFrame mem sv (payload r.messages) s = (.again, s, []) := by
  cases r with
  | call h name m named req =>
    rw [handleFrame, Request.messages, read_payload mem hsend]
    exact if_pos hid
  | unknown h name unnamed args =>
    rw [handleFrame, Request.messages, read_payload mem hsend]
    exact if_pos hid

theorem handleFrame_call (mem : Memory) {name : Str} {m : Method}
    (named : sameName (cStr name) m.name = true) (req : sv.Req m)
    (hsend : Framable (Request.messages (.call h name m named req))) (hid : ¬h.callid < 0) (s : σ) :
    handleFrame mem sv (payload (Request.messages (.call h name m named req))) s =
      ((sv.pb m req s).2.answer h).elim (.dead, (sv.pb m req s).1, [])
        fun a => (.again, (sv.pb m req s).1, hrpcWrite a.messages) := by
  rw [handleFrame, Request.messages, read_payload mem hsend]
  dsimp only
  rw [if_neg hid, read_payload mem hsend.tail]
  dsimp only
  rw [find_of_sameName named]
  dsimp only
  rw [tryMethod, read_payload mem hsend.tail.tail]
  dsimp only
  obtain ⟨s', completion⟩ := sv.pb m req s
  cases completion <;> rfl

theorem handleFrame_unknown (mem : Memory) {name : Str}
    (unnamed : ∀ m : Method, sameName (cStr name) m.name = false) (args : Message)
    (hsend : Framable (Request.messages (.unknown h name unnamed args : Request sv))) (hid : ¬h.callid < 0)
    (s : σ) : handleFrame mem sv (payload (Request.messages (.unknown h name unnamed args : Request sv))) s =
      (.stop, s, hrpcWrite (Answer.messages (⟨noSuchMethod h, none⟩ : Answer sv))) := by
  have hfind : (Method.all.find? fun m => sameName (cStr name) m.name) = none := by
    rw [List.find?_eq_none]
    intro m _ hm
    rw [unnamed m] at hm
    cases hm
  rw [handleFrame, Request.messages, read_payload mem hsend]
  dsimp only
  rw [if_neg hid, read_payload mem hsend.tail]
  dsimp only
  rw [hfind]
  rfl

theorem handleRpcs_none (mem : Memory) (s : σ) {fd : Fd} (h : hrpcRead fd = none) :
    handleRpcs mem sv s fd = (.stop, s, []) := by
  rw [handleRpcs]
  split
  next => rfl
  next frame fd' hread => cases h.symm.trans hread

theorem hrpcRead_nil (ready : ℕ → ℕ) : hrpcRead ⟨[], ready⟩ = none := by
  rw [hrpcRead]
  dsimp only [Fd.read]
  rw [List.take_nil]
  exact if_pos (by decide)

theorem handleRpcs_some (mem : Memory) (s : σ) {fd fd' : Fd} {frame : Str}
    (h : hrpcRead fd = some (frame, fd')) : handleRpcs mem sv s fd =
      if (handleFrame mem sv frame s).1 = .again then
        ((handleRpcs mem sv (handleFrame mem sv frame s).2.1 fd').1,
          (handleRpcs mem sv (handleFrame mem sv frame s).2.1 fd').2.1,
          (handleFrame mem sv frame s).2.2 ++ (handleRpcs mem sv (handleFrame mem sv frame s).2.1 fd').2.2)
      else handleFrame mem sv frame s := by
  rw [handleRpcs]
  split
  next hread => cases h.symm.trans hread
  next frame' fd'' hread =>
    cases h.symm.trans hread
    obtain ⟨next, s', out⟩ := handleFrame mem sv frame s
    cases next <;> rfl

theorem perform_skipped (hid : r.rpcHeader.callid < 0) (rs : List (Request sv)) :
    perform sv s (r :: rs) = perform sv s rs := by
  cases r with
  | call h name m named req => exact if_pos hid
  | unknown h name unnamed args => exact if_pos hid

theorem perform_unknown {name : Str} (unnamed : ∀ m : Method, sameName (cStr name) m.name = false)
    (args : Message) (hid : ¬h.callid < 0) (rs : List (Request sv)) :
    perform sv s (.unknown h name unnamed args :: rs) = (.stop, s, [⟨noSuchMethod h, none⟩]) := if_neg hid

theorem perform_call {name : Str} {m : Method} (named : sameName (cStr name) m.name = true) (req : sv.Req m)
    (hid : ¬h.callid < 0) (rs : List (Request sv)) : perform sv s (.call h name m named req :: rs) =
      ((sv.pb m req s).2.answer h).elim (.dead, (sv.pb m req s).1, [])
        fun a => ((perform sv (sv.pb m req s).1 rs).1, (perform sv (sv.pb m req s).1 rs).2.1,
          a :: (perform sv (sv.pb m req s).1 rs).2.2) := by
  rw [perform, if_neg hid]
  cases (sv.pb m req s).2.answer h <;> rfl

/-- What the loop does is what the namenode does with the requests whose frames arrive. -/
theorem handleRpcs_eq (mem : Memory) (hsend : ∀ r ∈ rs, Framable r.messages) (s : σ) (ready : ℕ → ℕ) :
    handleRpcs mem sv s ⟨frames (rs.map Request.messages), ready⟩ =
      ((perform sv s (rs.take (arrived (rs.map Request.messages) ready))).1,
        (perform sv s (rs.take (arrived (rs.map Request.messages) ready))).2.1,
        frames ((perform sv s (rs.take (arrived (rs.map Request.messages) ready))).2.2.map
          Answer.messages)) := by
  induction rs generalizing s ready with
  | nil => exact handleRpcs_none mem s (hrpcRead_nil ready)
  | cons r rs ih =>
    obtain ⟨hfirst, hothers⟩ := List.forall_mem_cons.1 hsend
    have hread := hrpcRead_hrpcWrite hfirst (frames (rs.map Request.messages)) ready
    rw [List.map_cons, frames_cons, arrived]
    split_ifs at hread ⊢ with hready
    · have hloop := fun s => ih hothers s fun k => ready (k + 2)
      rw [handleRpcs_some mem s hread, List.take_succ_cons]
      by_cases hid : r.rpcHeader.callid < 0
      · rw [handleFrame_skipped mem hfirst hid, if_pos rfl, perform_skipped hid, hloop]
        rfl
      · cases r with
        | unknown h name unnamed args =>
          change ¬h.callid < 0 at hid
          rw [handleFrame_unknown mem unnamed args hfirst hid, if_neg Next.noConfusion,
            perform_unknown unnamed args hid, List.map_singleton, frames, List.flatMap_singleton]
        | call h name m named req =>
          change ¬h.callid < 0 at hid
          rw [handleFrame_call mem named req hfirst hid, perform_call named req hid]
          cases (sv.pb m req s).2.answer h with
          | none => exact if_neg Next.noConfusion
          | some a =>
            refine (if_pos rfl).trans ?_
            dsimp only [Option.elim_some]
            rw [hloop, List.map_cons, frames_cons]
    · exact handleRpcs_none mem s hread

/-- How an answer belongs to a request. -/
inductive Answers : Request sv → Answer sv → Prop
  | returned {h : RpcRequestHeader} {name : Str} {m : Method} {named : sameName (cStr name) m.name = true}
      {req : sv.Req m} {header : RpcResponseHeader} {resp : sv.Resp m} (hs : header.status = .success) :
      Answers (.call h name m named req) ⟨header, some ⟨m, resp⟩⟩
  | failed {r : Request sv} {header : RpcResponseHeader} (hs : header.status ≠ .success) :
      Answers r ⟨header, none⟩

theorem answers_of_answer {name : Str} {m : Method} (named : sameName (cStr name) m.name = true)
    (req : sv.Req m) {completion : Completion (sv.Resp m)} {a : Answer sv}
    (ha : completion.answer h = some a) : Answers (.call h name m named req) a := by
  cases completion with
  | returned resp =>
    cases ha
    exact .returned rfl
  | hdfsException what =>
    cases ha
    exact .failed RpcStatus.noConfusion
  | exception => cases ha

theorem receive_cons (mem : Memory) {a : Answer sv} (hid : ¬r.rpcHeader.callid < 0) {fd fd' : Fd}
    (hsend : Framable a.messages) (hread : hrpcRead fd = some (payload a.messages, fd'))
    (hanswers : Answers r a) : receive mem sv (r :: rs) fd = a :: receive mem sv rs fd' := by
  rw [receive, if_neg hid, hread]
  dsimp only
  rw [Answer.messages, read_payload mem hsend]
  dsimp only
  cases hanswers with
  | failed hstatus => rw [if_neg hstatus]
  | returned hstatus =>
    rw [if_pos hstatus]
    dsimp only [Option.map_some, Option.toList_some]
    rw [read_payload mem hsend.tail]

theorem receive_none (mem : Memory) {fd : Fd} (hread : hrpcRead fd = none) (rs : List (Request sv)) :
    receive mem sv rs fd = [] := by
  induction rs with
  | nil => rfl
  | cons r rs ih =>
    rw [receive]
    split_ifs
    · exact ih
    · rw [hread]

private theorem receive_answer (mem : Memory) {a : Answer sv} {answers : List (Answer sv)}
    (hid : ¬r.rpcHeader.callid < 0) (hsend : Framable a.messages) (hanswers : Answers r a)
    (hrest : ∀ ready, receive mem sv rs ⟨frames (answers.map Answer.messages), ready⟩ =
      answers.take (arrived (answers.map Answer.messages) ready)) (ready : ℕ → ℕ) :
    receive mem sv (r :: rs) ⟨frames ((a :: answers).map Answer.messages), ready⟩ =
      (a :: answers).take (arrived ((a :: answers).map Answer.messages) ready) := by
  have hread := hrpcRead_hrpcWrite hsend (frames (answers.map Answer.messages)) ready
  rw [List.map_cons, frames_cons, arrived]
  split_ifs at hread ⊢ with hready
  · rw [receive_cons mem hid hsend hread hanswers, hrest, List.take_succ_cons]
  · rw [receive_none mem hread, List.take_zero]

/-- The client reads the answers, whatever part of its requests was performed. -/
theorem receive_perform (mem : Memory) (n : ℕ) (s : σ)
    (hsend : ∀ a ∈ (perform sv s (rs.take n)).2.2, Framable a.messages) (ready : ℕ → ℕ) :
    receive mem sv rs ⟨frames ((perform sv s (rs.take n)).2.2.map Answer.messages), ready⟩ =
      (perform sv s (rs.take n)).2.2.take
        (arrived ((perform sv s (rs.take n)).2.2.map Answer.messages) ready) := by
  have hempty : ∀ (rs : List (Request sv)) ready,
      receive mem sv rs ⟨frames (([] : List (Answer sv)).map Answer.messages), ready⟩ =
        ([] : List (Answer sv)).take (arrived (([] : List (Answer sv)).map Answer.messages) ready) := by
    intro rs ready
    rw [List.take_nil]
    exact receive_none mem (hrpcRead_nil ready) rs
  induction rs generalizing s n ready with
  | nil =>
    rw [List.take_nil]
    exact hempty [] ready
  | cons r rs ih =>
    cases n with
    | zero => exact hempty _ ready
    | succ n =>
      rw [List.take_succ_cons] at hsend ⊢
      by_cases hid : r.rpcHeader.callid < 0
      · rw [perform_skipped hid] at hsend ⊢
        rw [receive, if_pos hid, ih n s hsend]
      · cases r with
        | unknown h name unnamed args =>
          have hnot : ¬h.callid < 0 := hid
          rw [perform_unknown unnamed args hnot] at hsend ⊢
          exact receive_answer mem hid (hsend _ List.mem_cons_self) (.failed RpcStatus.noConfusion)
            (hempty rs)
            ready
        | call h name m named req =>
          have hnot : ¬h.callid < 0 := hid
          rw [perform_call named req hnot] at hsend ⊢
          cases ha : (sv.pb m req s).2.answer h with
          | none => exact hempty _ ready
          | some a =>
            rw [ha] at hsend
            obtain ⟨hfirst, hothers⟩ := List.forall_mem_cons.1 hsend
            exact receive_answer mem hid hfirst (answers_of_answer named req ha) (ih n _ hothers) ready

def hello : Str := ascii "hrpc" ++ [9, 0, 0]

private theorem readHeader_hello (stream : Str) (ready : ℕ → ℕ) : readHeader ⟨hello ++ stream, ready⟩ =
    if 7 ≤ ready 0 then some ⟨stream, fun k => ready (k + 1)⟩ else none := by
  have hseven : hello.length = 7 := by decide
  obtain ⟨hcomplete, hshort⟩ := read_append hello stream ready
  rw [hseven] at hcomplete hshort
  rw [readHeader]
  split_ifs with hready
  · rw [hcomplete hready]
    exact if_pos rfl
  · refine if_neg fun heq => hshort (Nat.not_le.1 hready) ?_
    exact (congrArg List.length heq).trans (by decide)

variable (rs ready) in
/-- The requests whose frames arrive, behind the header of the connection. -/
def delivered : List (Request sv) :=
  if 7 ≤ ready 0 then rs.take (arrived (rs.map Request.messages) fun k => ready (k + 1)) else []

/-- The namenode performs the requests whose frames arrive in one piece, in their order, and none after
them. The client reads the answers in that order, up to the first that does not arrive so itself. If
no `read` is short all requests are performed. -/
theorem connection_serves (mem : Memory) (s : σ) (hsend : ∀ r ∈ rs, Framable r.messages) (ready : ℕ → ℕ) :
    worker mem sv s ⟨hello ++ frames (rs.map Request.messages), ready⟩ =
      ((perform sv s (delivered rs ready)).1, (perform sv s (delivered rs ready)).2.1,
        frames ((perform sv s (delivered rs ready)).2.2.map Answer.messages)) ∧
    ((∀ a ∈ (perform sv s (delivered rs ready)).2.2, Framable a.messages) → ∀ ready',
      receive mem sv rs ⟨frames ((perform sv s (delivered rs ready)).2.2.map Answer.messages), ready'⟩ =
        (perform sv s (delivered rs ready)).2.2.take
          (arrived ((perform sv s (delivered rs ready)).2.2.map Answer.messages) ready')) ∧
    (7 ≤ ready 0 → Whole (rs.map Request.messages) (fun k => ready (k + 1)) → delivered rs ready = rs) := by
  have htake : ∃ n, delivered rs ready = rs.take n := by
    rw [delivered]
    split_ifs
    · exact ⟨_, rfl⟩
    · exact ⟨0, rfl⟩
  refine ⟨?_, ?_, ?_⟩
  · rw [worker, readHeader_hello, delivered]
    split_ifs
    · exact handleRpcs_eq mem hsend s _
    · rfl
  · obtain ⟨n, htake⟩ := htake
    rw [htake]
    exact receive_perform mem n s
  · intro hready hwhole
    rw [delivered, if_pos hready, arrived_of_whole hwhole, List.length_map, List.take_length]

end

def registerOnNamenode {σ : Type} {sv : Service σ} (uuid : Str) (registration : sv.Req .registerDatanode) :
    Request sv :=
  .call { callid := 0, clientid := uuid } (ascii "registerDatanode") .registerDatanode (by decide)
    registration

def sendHeartbeat {σ : Type} {sv : Service σ} (uuid : Str) (id : sv.Req .datanodeHeartbeat) : Request sv :=
  .call { callid := 0, clientid := uuid } (ascii "datanodeHeartbeat") .datanodeHeartbeat (by decide) id

def codecOf {T : Type} (m : Marshal T) (h : ∀ t, m.Fits t) : Codec T where
  serialize := m.put
  parse l := (m.get l).map Prod.fst
  parse_serialize t := by
    have hget := m.get_put t [] (h t)
    rw [List.append_nil] at hget
    rw [hget, Option.map_some]

def flag {T : Type} (ofBool : Bool → T) (toBool : T → Bool) (h : ∀ t, ofBool (toBool t) = t) : Marshal T :=
  .word 1 (fun n => ofBool (n == 1)) (fun t => (toBool t).toNat)
    (fun t => (Bool.toNat_lt (toBool t)).trans (by decide)) fun t => by cases ht : toBool t <;> simp [← ht, h]

def requestCodec : Codec RpcRequestHeader :=
  codecOf ((Marshal.int32.pair (Marshal.text.pair .int32)).record (fun x => ⟨x.1, x.2.1, x.2.2⟩)
    (fun h => (h.callid, h.clientid, h.retrycount)) fun _ => rfl) fun _ => ⟨trivial, trivial, trivial⟩

def statusFlag : Marshal RpcStatus :=
  flag (fun b => if b then .error else .success) (fun s => s = .error) fun s => by cases s <;> rfl

def detailFlag : Marshal (Option RpcErrorCode) :=
  flag (fun b => if b then some .errorNoSuchMethod else none) Option.isSome fun o => by
    cases o with
    | none => rfl
    | some e => cases e; rfl

def optionalText : Marshal (Option Str) :=
  ((flag id id fun _ => rfl).pair .text).record (fun x => if x.1 then some x.2 else none)
    (fun o => (o.isSome, o.getD [])) fun o => by cases o <;> rfl

def responseCodec : Codec RpcResponseHeader :=
  codecOf ((Marshal.uint32.pair (statusFlag.pair (Marshal.uint32.pair (Marshal.text.pair
    (Marshal.int32.pair (optionalText.pair detailFlag)))))).record
      (fun x => ⟨x.1, x.2.1, x.2.2.1, x.2.2.2.1, x.2.2.2.2.1, x.2.2.2.2.2.1, x.2.2.2.2.2.2⟩)
      (fun h => (h.callid, h.status, h.serveripcversionnum, h.clientid, h.retrycount, h.errormsg,
        h.errordetail)) fun _ => rfl)
    fun _ => ⟨trivial, trivial, trivial, trivial, trivial, ⟨trivial, trivial⟩, trivial⟩

/-- A namenode that keeps a log of its calls and returns what it is given. -/
def logService : Service (List Method) where
  Req _ := Str
  Resp _ := Str
  rpcHeader := requestCodec
  header := rawCodec
  req _ := rawCodec
  rpcResponse := responseCodec
  resp _ := rawCodec
  pb m req s := (s ++ [m], .returned req)

private theorem length_payload_of_short {ms : List Message} (hsize : ∀ m ∈ ms, m.bytes.length < 128) :
    (payload ms).length ≤ 128 * ms.length := by
  induction ms with
  | nil => exact Nat.zero_le _
  | cons m ms ih =>
    obtain ⟨hm, hms⟩ := List.forall_mem_cons.1 hsize
    have hone : varintSize64 m.bytes.length = 1 := if_pos hm
    have hrest := ih hms
    rw [payload_cons, List.length_append, length_delimited (hm.trans (by decide)), getDelimitedLength, hone,
      List.length_cons]
    omega

theorem framable_of_short {ms : List Message} (hsize : ∀ m ∈ ms, m.bytes.length < 128)
    (hlen : ms.length ≤ 3) : Framable ms ∧ (payload ms).length ≤ 384 := by
  have hpayload := length_payload_of_short hsize
  exact ⟨⟨fun m hm => (hsize m hm).trans (by decide), by omega⟩, by omega⟩

/-- The namenode lies at the bottom of the memory, and there is nothing around it. -/
def emptyMemory : Memory := ⟨maskedShift, fun _ => 0, fun _ _ _ => none, fun l hl => by
  rw [UInt64.toNat_zero]
  omega⟩

def anonymous : RpcRequestHeader := { callid := 0, clientid := [] }

def datanodeRequests : List (Request logService) :=
  [registerOnNamenode [] [1], sendHeartbeat [] [2], sendHeartbeat [] [3]]

/-- The sixth `read` is short: only two bytes of the third length are there. -/
def shortSixth (k : ℕ) : ℕ := if k = 5 then 2 else 384

theorem length_empty : (Varint.encode 0).length = 1 := by
  rw [Varint.encode_of_lt (by decide), List.length_singleton]

theorem short_datanodeRequests : ∀ r ∈ datanodeRequests,
    Framable r.messages ∧ (payload r.messages).length ≤ 384 := by
  have hrequest : (requestCodec.serialize anonymous).length < 128 := by
    change (bigEndian 4 _ ++ ((Varint.encode 0 ++ []) ++ bigEndian 4 _)).length < 128
    simp only [List.length_append, length_bigEndian, length_empty, List.length_nil]
    decide
  have hshort : ∀ r ∈ datanodeRequests, ∀ m ∈ r.messages, m.bytes.length < 128 := by
    rw [datanodeRequests, List.forall_mem_cons, List.forall_mem_cons, List.forall_mem_singleton]
    refine ⟨?_, ?_, ?_⟩ <;>
      exact List.forall_mem_cons.2 ⟨hrequest, List.forall_mem_cons.2 ⟨by decide, List.forall_mem_singleton.2
        (by decide)⟩⟩
  intro r hr
  refine framable_of_short (hshort r hr) ?_
  cases r <;> exact le_rfl

private theorem short_answer (m : Method) (b : UInt8) :
    Framable (Answer.messages (⟨successHeader anonymous, some ⟨m, [b]⟩⟩ : Answer logService)) ∧
    (payload (Answer.messages (⟨successHeader anonymous, some ⟨m, [b]⟩⟩ : Answer logService))).length ≤
      384 := by
  have hresponse : (responseCodec.serialize (successHeader anonymous)).length < 128 := by
    change (bigEndian 4 _ ++ (bigEndian 1 _ ++ (bigEndian 4 _ ++ ((Varint.encode 0 ++ []) ++ (bigEndian 4 _ ++
      ((bigEndian 1 _ ++ (Varint.encode 0 ++ [])) ++ bigEndian 1 _)))))).length < 128
    simp only [List.length_append, length_bigEndian, length_empty, List.length_nil]
    decide
  have hone : [b].length < 128 := by rw [List.length_singleton]; decide
  exact framable_of_short (List.forall_mem_cons.2 ⟨hresponse, List.forall_mem_singleton.2 hone⟩)
    (Nat.le_succ 2)

/-- The second heartbeat is lost. -/
theorem connection_serves_datanode :
    worker emptyMemory logService [] ⟨hello ++ frames (datanodeRequests.map Request.messages), shortSixth⟩ =
      (.stop, [.registerDatanode, .datanodeHeartbeat],
        frames ([⟨successHeader anonymous, some ⟨.registerDatanode, [1]⟩⟩,
          ⟨successHeader anonymous, some ⟨.datanodeHeartbeat, [2]⟩⟩].map
            (Answer.messages : Answer logService → List Message))) ∧
    receive emptyMemory logService datanodeRequests
      ⟨frames ([⟨successHeader anonymous, some ⟨.registerDatanode, [1]⟩⟩,
        ⟨successHeader anonymous, some ⟨.datanodeHeartbeat, [2]⟩⟩].map
          (Answer.messages : Answer logService → List Message)), fun _ => 384⟩ =
      [⟨successHeader anonymous, some ⟨.registerDatanode, [1]⟩⟩,
        ⟨successHeader anonymous, some ⟨.datanodeHeartbeat, [2]⟩⟩] := by
  have hshort := short_datanodeRequests
  obtain ⟨hfirst, hsecond, -⟩ : _ ∧ _ ∧ _ := by
    rwa [datanodeRequests, List.forall_mem_cons, List.forall_mem_cons, List.forall_mem_singleton] at hshort
  have hdelivered : delivered datanodeRequests shortSixth =
      [registerOnNamenode [] [1], sendHeartbeat [] [2]] := by
    have harrived : arrived (datanodeRequests.map Request.messages) (fun k => shortSixth (k + 1)) = 2 := by
      rw [datanodeRequests, List.map_cons, List.map_cons, List.map_cons, arrived,
        if_pos ⟨by decide, hfirst.2⟩, arrived, if_pos ⟨by decide, hsecond.2⟩, arrived, if_neg (by decide)]
    rw [delivered, if_pos (by decide), harrived]
    rfl
  obtain ⟨hworker, hreceive, -⟩ := connection_serves emptyMemory ([] : List Method)
    (fun r hr => (hshort r hr).1) shortSixth
  rw [hdelivered] at hworker hreceive
  refine ⟨hworker, (hreceive ?_ fun _ => 384).trans ?_⟩
  · exact List.forall_mem_cons.2 ⟨(short_answer _ 1).1, List.forall_mem_singleton.2 (short_answer _ 2).1⟩
  · rw [arrived_of_whole]
    · rfl
    · refine fun k => ⟨show 4 ≤ 384 by decide, ?_⟩
      exact List.forall_mem_cons.2 ⟨(short_answer _ 1).2, List.forall_mem_singleton.2 (short_answer _ 2).2⟩

end Connection
end Yfs.Hdfs
