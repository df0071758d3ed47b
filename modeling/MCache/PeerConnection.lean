import MCache.GoSlices
import MCache.Strconv
import MCache.TransitionSystem

/-!
# The persistent connection to a Raft peer

`sendRPC` of `net/raft_transport.go` on the connection that `connectToPeer`
keeps to one peer, with the `handleConn` that `connectToPeer` runs on the same
connection.  Calls write their requests and read the next envelope; nothing ties
an envelope to a call.

A `Read` that returns several bytes is as good as several that return one, so
that readers take one byte a step.  `Write` is atomic.
-/

namespace MCache.Net.PeerConnection

/-! ## Envelopes -/

structure Envelope where
  type : UInt8
  payload : Bytes
  deriving DecidableEq

def Envelope.encode (e : Envelope) : Bytes := e.type :: bigEndian 4 e.payload.length ++ e.payload

def maxRaftPayload : ℕ := 16 * 1024 * 1024

inductive Decoding where
  | more
  | tooLarge
  | done (e : Envelope)

def decodeRaftRPCEnvelope (bytes : Bytes) : Decoding :=
  match bytes with
  | type :: a :: b :: c :: d :: payload =>
    let payloadLen := ofBigEndian [a, b, c, d]
    if maxRaftPayload < payloadLen then .tooLarge
    else if payload.length < payloadLen then .more
    else .done ⟨type, payload⟩
  | _ => .more

inductive RequestType where
  | appendEntries
  | requestVote
  deriving DecidableEq

def RequestType.code : RequestType → UInt8
  | .appendEntries => 1
  | .requestVote => 3

def RequestType.responseCode : RequestType → UInt8
  | .appendEntries => 2
  | .requestVote => 4

/-! ## Answers -/

inductive Answer where
  | appendEntries (term : UInt64) (success : Bool) (lastIndex : UInt64)
  | requestVote (term : UInt64) (voteGranted : Bool)
  deriving DecidableEq

namespace Answer

def type : Answer → RequestType
  | .appendEntries _ _ _ => .appendEntries
  | .requestVote _ _ => .requestVote

def boolText (b : Bool) : Bytes := if b then ascii "true" else ascii "false"

def payload : Answer → Bytes
  | .appendEntries term success lastIndex =>
    ascii "\x7b\"term\":" ++ Strconv.formatUint term.toNat ++ ascii ",\"success\":" ++
      boolText success ++ ascii ",\"last_index\":" ++ Strconv.formatUint lastIndex.toNat ++
      ascii "\x7d"
  | .requestVote term voteGranted =>
    ascii "\x7b\"term\":" ++ Strconv.formatUint term.toNat ++ ascii ",\"vote_granted\":" ++
      boolText voteGranted ++ ascii "\x7d"

def envelope (a : Answer) : Envelope where
  type := a.type.responseCode
  payload := a.payload

end Answer

/-! ## Calls -/

inductive Stage where
  | writing
  | reading (bytes : Bytes)
  deriving DecidableEq

structure Call where
  id : ℕ
  type : RequestType
  payload : Bytes
  stage : Stage
  deriving DecidableEq

inductive WriteResult where
  | ok
  | failed (arrived : Bool)
  deriving DecidableEq

inductive Event where
  | call (type : RequestType) (payload : Bytes)
  | write (result : WriteResult)
  | read
  | fail

inductive ReaderEvent where
  | read
  | fail

inductive Action (n : ℕ) where
  | thread (p : Fin n) (e : Event)
  | background (e : ReaderEvent)
  | peer (index : ℕ) (answer : Answer)

structure State (n : ℕ) where
  closed : Bool
  inbox : Bytes
  background : Bytes
  calls : ℕ
  unanswered : List (ℕ × RequestType)
  answered : List (ℕ × Envelope)
  threads : Fin n → Option Call
  returned : List (ℕ × RequestType × Bytes)

namespace State

variable {n : ℕ}

def initial : State n := ⟨false, [], [], 0, [], [], fun _ => none, []⟩

def withThread (s : State n) (p : Fin n) (call : Option Call) : State n :=
  { s with threads := Function.update s.threads p call }

def sendRPC (s : State n) (p : Fin n) (call : Call) : Event → Option (State n)
  | .write result =>
    match call.stage with
    | .writing =>
      if s.closed then some (s.withThread p none)
      else
        match result with
        | .ok =>
          some
            { s.withThread p (some { call with stage := .reading [] }) with
              unanswered := s.unanswered ++ [(call.id, call.type)] }
        | .failed arrived =>
          some
            { s.withThread p none with
              unanswered := s.unanswered ++
                if arrived then [(call.id, call.type)] else [] }
    | .reading _ => none
  | .read =>
    match call.stage, s.closed, s.inbox with
    | .reading bytes, false, b :: rest =>
      let s := { s with inbox := rest }
      match decodeRaftRPCEnvelope (bytes ++ [b]) with
      | .more =>
        some (s.withThread p (some { call with stage := .reading (bytes ++ [b]) }))
      | .tooLarge => some (s.withThread p none)
      | .done respEnv =>
        some
          { s.withThread p none with
            returned := s.returned ++ [(call.id, call.type, respEnv.payload)] }
    | _, _, _ => none
  | .fail =>
    match call.stage with
    | .writing => none
    | .reading _ => some (s.withThread p none)
  | .call _ _ => none

def stepThread (s : State n) (p : Fin n) (e : Event) : Option (State n) :=
  match s.threads p with
  | some call => s.sendRPC p call e
  | none =>
    match e with
    | .call type payload =>
      some
        { s.withThread p (some ⟨s.calls, type, payload, .writing⟩) with
          calls := s.calls + 1 }
    | _ => none

def handleConn (s : State n) : ReaderEvent → Option (State n)
  | .read =>
    match s.closed, s.inbox with
    | false, b :: rest =>
      let s := { s with inbox := rest }
      match decodeRaftRPCEnvelope (s.background ++ [b]) with
      | .more => some { s with background := s.background ++ [b] }
      | .tooLarge => some { s with closed := true }
      | .done _ => some { s with background := [] }
    | _, _ => none
  | .fail => some { s with closed := true }

def answer (s : State n) (index : ℕ) (a : Answer) : Option (State n) :=
  match s.unanswered[index]? with
  | some (id, type) =>
    if a.type = type then
      some
        { s with
          inbox := s.inbox ++ a.envelope.encode
          unanswered := s.unanswered.eraseIdx index
          answered := s.answered ++ [(id, a.envelope)] }
    else none
  | none => none

def step (s : State n) : Action n → Option (State n)
  | .thread p e => s.stepThread p e
  | .background e => s.handleConn e
  | .peer index a => s.answer index a

end State

def connection (n : ℕ) : TransitionSystem (State n) (Action n) where
  init := fun s => s = .initial
  step := State.step

/-! ## What the text of an answer looks like -/

section Text

theorem formatUint_length_le {n : ℕ} (h : n < 2 ^ 64) : (Strconv.formatUint n).length ≤ 20 := by
  unfold Strconv.formatUint
  split_ifs
  · decide
  · rw [List.length_map, List.length_reverse]
    exact (Nat.digits_length_le_iff (by decide) n).mpr (h.trans (by norm_num))

theorem formatUint_ne_zero {n : ℕ} : ∀ b ∈ Strconv.formatUint n, b ≠ 0 := by
  unfold Strconv.formatUint
  split_ifs
  · decide +kernel
  · intro b hb
    obtain ⟨d, hd, rfl⟩ := List.mem_map.mp hb
    have hlt : d < 10 := Nat.digits_lt_base (by decide) (List.mem_reverse.mp hd)
    interval_cases d <;> decide

variable (a : Answer)

theorem Answer.payload_eq_cons : ∃ rest, a.payload = 123 :: rest := by
  cases a <;> exact ⟨_, rfl⟩

theorem Answer.payload_length_le : a.payload.length ≤ 123 := by
  have hbool : ∀ b, (Answer.boolText b).length ≤ 5 := by decide
  cases a with
  | appendEntries term success lastIndex =>
    have hterm := formatUint_length_le term.toNat_lt
    have hindex := formatUint_length_le lastIndex.toNat_lt
    have hsuccess := hbool success
    simp only [Answer.payload, List.length_append]
    have hparts : (ascii "\x7b\"term\":").length + (ascii ",\"success\":").length +
        (ascii ",\"last_index\":").length + (ascii "\x7d").length = 34 := by decide
    omega
  | requestVote term voteGranted =>
    have hterm := formatUint_length_le term.toNat_lt
    have hgranted := hbool voteGranted
    simp only [Answer.payload, List.length_append]
    have hparts : (ascii "\x7b\"term\":").length + (ascii ",\"vote_granted\":").length +
        (ascii "\x7d").length = 25 := by decide
    omega

theorem Answer.payload_ne_zero : ∀ b ∈ a.payload, b ≠ 0 := by
  have hbool : ∀ c, ∀ b ∈ Answer.boolText c, b ≠ 0 := by decide +kernel
  have hbrace : ∀ b ∈ ascii "\x7b\"term\":", b ≠ 0 := by decide +kernel
  have hend : ∀ b ∈ ascii "\x7d", b ≠ 0 := by decide +kernel
  cases a with
  | appendEntries term success lastIndex =>
    have hsuccess : ∀ b ∈ ascii ",\"success\":", b ≠ 0 := by decide +kernel
    have hindex : ∀ b ∈ ascii ",\"last_index\":", b ≠ 0 := by decide +kernel
    intro b hb
    simp only [Answer.payload, List.mem_append] at hb
    rcases hb with (((((hb | hb) | hb) | hb) | hb) | hb) | hb
    exacts [hbrace b hb, formatUint_ne_zero b hb, hsuccess b hb, hbool _ b hb,
      hindex b hb, formatUint_ne_zero b hb, hend b hb]
  | requestVote term voteGranted =>
    have hgranted : ∀ b ∈ ascii ",\"vote_granted\":", b ≠ 0 := by decide +kernel
    intro b hb
    simp only [Answer.payload, List.mem_append] at hb
    rcases hb with (((hb | hb) | hb) | hb) | hb
    exacts [hbrace b hb, formatUint_ne_zero b hb, hgranted b hb, hbool _ b hb, hend b hb]

theorem Answer.encode_eq : a.envelope.encode = a.type.responseCode :: 0 :: 0 :: 0 ::
      UInt8.ofNat a.payload.length :: a.payload := by
  have hlength := a.payload_length_le
  have hhigh : a.payload.length / 256 = 0 := Nat.div_eq_of_lt (by omega)
  simp [Envelope.encode, Answer.envelope, bigEndian, hhigh]

end Text

/-! ## One call and the background reader on one answer -/

structure Taken (bytes consumed : Bytes) : Prop where
  sublist : bytes.Sublist consumed
  fourth : bytes.length = 4 → ∃ before header x, consumed = before ++ [x] ∧
    bytes = header ++ [x] ∧ header.Sublist before
  fifth : 5 ≤ bytes.length → ∃ before after header payload x y,
    consumed = before ++ x :: y :: after ∧ bytes = header ++ x :: y :: payload ∧
      header.length = 3 ∧ header.Sublist before ∧ payload.Sublist after

theorem taken_nil : Taken [] [] := ⟨List.Sublist.refl _, nofun, nofun⟩

variable {bytes consumed : Bytes} {b : UInt8}

theorem Taken.read (h : Taken bytes consumed) : Taken (bytes ++ [b]) (consumed ++ [b]) := by
  refine ⟨h.sublist.append (List.Sublist.refl _),
    fun _ => ⟨consumed, bytes, b, rfl, rfl, h.sublist⟩, fun hlength => ?_⟩
  by_cases hfour : bytes.length = 4
  · obtain ⟨before, header, x, rfl, rfl, hsublist⟩ := h.fourth hfour
    refine ⟨before, [], header, [], x, b, by simp, by simp, ?_, hsublist, List.Sublist.refl _⟩
    simpa using hfour
  · have hfive : 5 ≤ bytes.length := by
      simp only [List.length_append, List.length_singleton] at hlength
      omega
    obtain ⟨before, after, header, payload, x, y, rfl, rfl, hthree, hbefore, hafter⟩ :=
      h.fifth hfive
    exact ⟨before, after ++ [b], header, payload ++ [b], x, y, by simp, by simp, hthree,
      hbefore, hafter.append (List.Sublist.refl _)⟩

theorem Taken.stolen (h : Taken bytes consumed) (hfour : bytes.length ≠ 4) :
    Taken bytes (consumed ++ [b]) := by
  refine ⟨h.sublist.trans (List.sublist_append_left _ _), fun heq => (hfour heq).elim,
    fun hlength => ?_⟩
  obtain ⟨before, after, header, payload, x, y, rfl, rfl, hthree, hbefore, hafter⟩ :=
    h.fifth hlength
  exact ⟨before, after ++ [b], header, payload, x, y, by simp, rfl, hthree, hbefore,
    hafter.trans (List.sublist_append_left _ _)⟩

theorem Taken.payload_eq {inbox : Bytes} {a : Answer} {e : Envelope}
    (h : Taken bytes consumed) (hencode : consumed ++ inbox = a.envelope.encode)
    (hdone : decodeRaftRPCEnvelope bytes = .done e) : e.payload = a.payload := by
  unfold decodeRaftRPCEnvelope at hdone
  split at hdone
  case h_2 => cases hdone
  case h_1 type h₁ h₂ h₃ h₄ payload =>
    dsimp only at hdone
    split_ifs at hdone with hlarge hmore
    cases hdone
    obtain ⟨before, after, header, payload', x, y, rfl, hbytes, hthree, hbefore, hafter⟩ :=
      h.fifth (by simp)
    obtain ⟨u, v, w, rfl⟩ := List.length_eq_three.mp hthree
    simp only [List.cons_append, List.nil_append, List.cons.injEq] at hbytes
    obtain ⟨rfl, rfl, rfl, rfl, rfl, rfl⟩ := hbytes
    rw [Answer.encode_eq] at hencode
    have hlength := a.payload_length_le
    have hpayload : ofBigEndian [h₁, h₂, h₃, h₄] ≤ payload.length := Nat.le_of_not_lt hmore
    have hnumber : ofBigEndian [h₁, h₂, h₃, h₄] =
        ((h₁.toNat * 256 + h₂.toNat) * 256 + h₃.toNat) * 256 + h₄.toNat := by
      simp [ofBigEndian]
    have hafterLength := hafter.length_le
    rcases before with _ | ⟨p, _ | ⟨q, _ | ⟨r, more⟩⟩⟩
    · simpa using hbefore.length_le
    · simpa using hbefore.length_le
    · simpa using hbefore.length_le
    simp only [List.cons_append, List.cons.injEq, List.append_assoc] at hencode
    obtain ⟨rfl, rfl, rfl, hencode⟩ := hencode
    rcases more with _ | ⟨z, _ | ⟨l, more⟩⟩
    · -- The header is the one of the answer.
      simp only [List.nil_append, List.cons.injEq] at hencode
      obtain ⟨rfl, rfl, hrest⟩ := hencode
      have hheader := hbefore.eq_of_length rfl
      simp only [List.cons.injEq, and_true] at hheader
      obtain ⟨rfl, rfl, rfl⟩ := hheader
      have hnumber : ofBigEndian [0, 0, 0, UInt8.ofNat a.payload.length] = a.payload.length := by
        rw [hnumber, UInt8.toNat_ofNat']
        simp
        omega
      have hrestLength := congrArg List.length hrest
      rw [List.length_append] at hrestLength
      have hinbox : inbox = [] := List.length_eq_zero_iff.mp (by omega)
      rw [hafter.eq_of_length (by omega), ← hrest, hinbox, List.append_nil]
    · -- A byte of the header is missing: the last of the length is the brace.
      simp only [List.cons_append, List.nil_append, List.cons.injEq] at hencode
      obtain ⟨-, -, hrest⟩ := hencode
      obtain ⟨rest, hbrace⟩ := a.payload_eq_cons
      rw [hbrace] at hrest
      obtain ⟨rfl, hrest⟩ := List.cons.inj hrest
      have hrestLength := congrArg List.length hrest
      have hpayloadLength := congrArg List.length hbrace
      simp only [List.length_append, List.length_cons] at hrestLength hpayloadLength
      have hbraceNat : (123 : UInt8).toNat = 123 := rfl
      omega
    · -- More is missing: the last but one is a byte of the text.
      simp only [List.cons_append, List.cons.injEq] at hencode
      obtain ⟨-, -, hrest⟩ := hencode
      have hmem : h₃ ∈ a.payload := by
        rw [← hrest]
        simp
      have hne : h₃.toNat ≠ 0 := fun hzero =>
        a.payload_ne_zero _ hmem (UInt8.toNat_inj.mp hzero)
      have hrestLength := congrArg List.length hrest
      simp only [List.length_append, List.length_cons] at hrestLength
      omega

/-! ## Calls one after the other -/

namespace State

variable {n : ℕ}

def received (s : State n) (p : Fin n) : Option Bytes :=
  match s.threads p with
  | some ⟨_, _, _, .reading bytes⟩ => some bytes
  | _ => none

def Exclusive (s : State n) (a : Action n) : Prop :=
  match a with
  | .thread p (.write _) =>
    (∀ q, q ≠ p → s.received q = none) ∧ s.unanswered = [] ∧ s.inbox = []
  | .background .read => ∀ q, (s.received q).map List.length ≠ some 4
  | _ => True

instance (s : State n) (a : Action n) : Decidable (s.Exclusive a) := by
  unfold Exclusive
  split <;> infer_instance

def Reads (s : State n) (p : Fin n) (call : Call) (bytes : Bytes) : Prop :=
  s.threads p = some call ∧ call.stage = .reading bytes

theorem Reads.received {s : State n} {p : Fin n} {call : Call} {bytes : Bytes}
    (h : s.Reads p call bytes) : s.received p = some bytes := by
  obtain ⟨hthread, hstage⟩ := h
  obtain ⟨id, type, payload, stage⟩ := call
  cases hstage
  simp only [State.received, hthread]

theorem reads_withThread {s : State n} {p q : Fin n} {x : Option Call} {call : Call}
    {bytes : Bytes} (h : (s.withThread p x).Reads q call bytes) :
    q = p ∧ x = some call ∧ call.stage = .reading bytes ∨ q ≠ p ∧ s.Reads q call bytes := by
  rcases update_eq_some h.1 with ⟨hq, hx⟩ | ⟨hq, hthread⟩
  · exact .inl ⟨hq, hx, h.2⟩
  · exact .inr ⟨hq, hthread, h.2⟩

def Waiting (s : State n) (call : Call) (bytes : Bytes) : Prop :=
  s.unanswered = [(call.id, call.type)] ∧ s.inbox = [] ∧ bytes = [] ∨
    s.unanswered = [] ∧ ∃ (a : Answer) (consumed : Bytes),
      (call.id, a.envelope) ∈ s.answered ∧ a.type = call.type ∧
        consumed ++ s.inbox = a.envelope.encode ∧ Taken bytes consumed

def OwnAnswer (s : State n) (result : ℕ × RequestType × Bytes) : Prop :=
  ∃ e, (result.1, e) ∈ s.answered ∧ e.type = result.2.1.responseCode ∧ result.2.2 = e.payload

structure Inv (s : State n) : Prop where
  single : ∀ p q call other bytes more, s.Reads p call bytes → s.Reads q other more → p = q
  waiting : ∀ p call bytes, s.Reads p call bytes → s.Waiting call bytes
  returned : ∀ result ∈ s.returned, s.OwnAnswer result

variable {s : State n} {p : Fin n} {call : Call} {final : State n}

theorem inv_initial : Inv (initial : State n) where
  single := fun _ _ _ _ _ _ h => nomatch h.1
  waiting := fun _ _ _ h => nomatch h.1
  returned := nofun

variable (h : s.Inv)
include h

theorem Inv.leave {x : Option Call} (hx : ∀ call, x = some call → call.stage = .writing) :
    (s.withThread p x).Inv := by
  have hreads : ∀ q call bytes, (s.withThread p x).Reads q call bytes → s.Reads q call bytes := by
    intro q call bytes hq
    rcases reads_withThread hq with ⟨-, hcall, hstage⟩ | ⟨-, hq⟩
    · cases (hx call hcall).symm.trans hstage
    · exact hq
  exact ⟨fun p q call other bytes more hp hq =>
      h.single p q call other bytes more (hreads _ _ _ hp) (hreads _ _ _ hq),
    fun q call bytes hq => h.waiting q call bytes (hreads _ _ _ hq), h.returned⟩

theorem Inv.of_none (hnone : ∀ p call bytes, ¬ final.Reads p call bytes)
    (hanswered : final.answered = s.answered)
    (hreturned : ∀ result ∈ final.returned, result ∈ s.returned ∨ s.OwnAnswer result) :
    final.Inv := by
  refine ⟨fun _ _ _ _ _ _ hp => (hnone _ _ _ hp).elim,
    fun _ _ _ hp => (hnone _ _ _ hp).elim, fun result hresult => ?_⟩
  unfold OwnAnswer
  rw [hanswered]
  exact (hreturned result hresult).elim (h.returned result) id

theorem Inv.not_reads {bytes : Bytes} (hreads : s.Reads p call bytes) :
    ∀ q other more, ¬ (s.withThread p none).Reads q other more := by
  intro q other more hq
  rcases reads_withThread hq with ⟨-, hnone, -⟩ | ⟨hne, hq⟩
  · cases hnone
  · exact hne (h.single q p other call more bytes hq hreads)

theorem Inv.write {result : WriteResult} (hexclusive : s.Exclusive (.thread p (.write result)))
    (hfinal : s.sendRPC p call (.write result) = some final) : final.Inv := by
  obtain ⟨hothers, hunanswered, hinbox⟩ := hexclusive
  have halone : ∀ q other more, q ≠ p → ¬ s.Reads q other more := by
    intro q other more hne hq
    cases (hothers q hne).symm.trans hq.received
  unfold State.sendRPC at hfinal
  dsimp only at hfinal
  split at hfinal
  case h_2 => cases hfinal
  case h_1 hwriting =>
    split_ifs at hfinal
    · cases hfinal
      exact h.leave nofun
    · cases result with
      | ok =>
        cases hfinal
        refine ⟨?_, ?_, h.returned⟩
        · intro q r other another bytes more hq hr
          rcases reads_withThread hq with ⟨hqp, -⟩ | ⟨hqp, hq⟩
          · rcases reads_withThread hr with ⟨hrp, -⟩ | ⟨hrp, hr⟩
            · exact hqp.trans hrp.symm
            · exact (halone r _ _ hrp hr).elim
          · exact (halone q _ _ hqp hq).elim
        · intro q other bytes hq
          rcases reads_withThread hq with ⟨-, hother, hstage⟩ | ⟨hqp, hq⟩
          · cases hother
            cases hstage
            exact .inl ⟨by rw [hunanswered]; rfl, hinbox, rfl⟩
          · exact (halone q _ _ hqp hq).elim
      | failed arrived =>
        cases hfinal
        refine h.of_none ?_ rfl fun result hresult => .inl hresult
        intro q other more hq
        rcases reads_withThread hq with ⟨-, hnone, -⟩ | ⟨hqp, hq⟩
        · cases hnone
        · exact halone q _ _ hqp hq

theorem Inv.read (hthread : s.threads p = some call)
    (hfinal : s.sendRPC p call .read = some final) : final.Inv := by
  unfold State.sendRPC at hfinal
  dsimp only at hfinal
  split at hfinal
  case h_2 => cases hfinal
  case h_1 bytes b rest hstage hclosed hinbox =>
    have hreads : s.Reads p call bytes := ⟨hthread, hstage⟩
    have hnone := h.not_reads hreads
    rcases h.waiting p call bytes hreads with
      ⟨-, hempty, -⟩ | ⟨hunanswered, a, consumed, hanswered, htype, hencode, htaken⟩
    · cases hempty.symm.trans hinbox
    rw [hinbox] at hencode
    have hnext : (consumed ++ [b]) ++ rest = a.envelope.encode := by simpa using hencode
    split at hfinal
    case h_1 =>
      cases hfinal
      refine ⟨?_, ?_, h.returned⟩
      · intro q r other another more most hq hr
        rcases reads_withThread hq with ⟨hqp, -⟩ | ⟨hqp, hq⟩
        · rcases reads_withThread hr with ⟨hrp, -⟩ | ⟨hrp, hr⟩
          · exact hqp.trans hrp.symm
          · exact (hrp (h.single r p _ _ _ _ hr hreads)).elim
        · exact (hqp (h.single q p _ _ _ _ hq hreads)).elim
      · intro q other more hq
        rcases reads_withThread hq with ⟨-, hother, hmore⟩ | ⟨hqp, hq⟩
        · cases hother
          cases hmore
          exact .inr ⟨hunanswered, a, consumed ++ [b], hanswered, htype, hnext, htaken.read⟩
        · exact (hqp (h.single q p _ _ _ _ hq hreads)).elim
    case h_2 =>
      cases hfinal
      exact h.of_none hnone rfl fun result hresult => .inl hresult
    case h_3 respEnv hdone =>
      cases hfinal
      refine h.of_none hnone rfl fun result hresult => ?_
      rcases List.mem_append.mp hresult with hresult | hresult
      · exact .inl hresult
      · cases List.mem_singleton.mp hresult
        refine .inr ⟨a.envelope, hanswered, ?_, htaken.read.payload_eq hnext hdone⟩
        exact congrArg RequestType.responseCode htype

theorem Inv.stepThread {e : Event} (hexclusive : s.Exclusive (.thread p e))
    (hfinal : s.stepThread p e = some final) : final.Inv := by
  unfold State.stepThread at hfinal
  split at hfinal
  case h_1 call hthread =>
    cases e with
    | call type payload => cases hfinal
    | write result => exact h.write hexclusive hfinal
    | read => exact h.read hthread hfinal
    | fail =>
      unfold State.sendRPC at hfinal
      dsimp only at hfinal
      split at hfinal <;> cases hfinal
      exact h.leave nofun
  case h_2 =>
    split at hfinal <;> cases hfinal
    rename_i type payload
    have hleft := h.leave (p := p) (x := some ⟨s.calls, type, payload, .writing⟩) (by
      rintro call ⟨⟩
      rfl)
    exact ⟨hleft.single, hleft.waiting, hleft.returned⟩

theorem Inv.background {b : UInt8} {rest : Bytes} (hinbox : s.inbox = b :: rest)
    (hexclusive : s.Exclusive (.background .read)) (background : Bytes) (closed : Bool) :
    Inv { s with inbox := rest, background := background, closed := closed } := by
  refine ⟨h.single, fun q call bytes hq => ?_, h.returned⟩
  have hreads : s.Reads q call bytes := hq
  have hfour : bytes.length ≠ 4 := by
    intro hfour
    refine hexclusive q ?_
    rw [hreads.received, Option.map_some, hfour]
  rcases h.waiting q call bytes hreads with
    ⟨-, hempty, -⟩ | ⟨hunanswered, a, consumed, hanswered, htype, hencode, htaken⟩
  · cases hempty.symm.trans hinbox
  rw [hinbox] at hencode
  exact .inr ⟨hunanswered, a, consumed ++ [b], hanswered, htype, by simpa using hencode,
    htaken.stolen hfour⟩

theorem Inv.handleConn {e : ReaderEvent} (hexclusive : s.Exclusive (.background e))
    (hfinal : s.handleConn e = some final) : final.Inv := by
  cases e with
  | fail =>
    cases hfinal
    exact ⟨h.single, h.waiting, h.returned⟩
  | read =>
    unfold State.handleConn at hfinal
    dsimp only at hfinal
    split at hfinal
    case h_2 => cases hfinal
    case h_1 b rest hclosed hinbox =>
      have hstep := h.background hinbox hexclusive
      split at hfinal <;> cases hfinal
      · exact hstep _ _
      · exact hstep _ _
      · exact hstep _ _

theorem Inv.answer {index : ℕ} {a : Answer}
    (hfinal : s.answer index a = some final) : final.Inv := by
  unfold State.answer at hfinal
  split at hfinal
  case h_2 => cases hfinal
  case h_1 id type hget =>
    split_ifs at hfinal with htype
    cases hfinal
    refine ⟨h.single, fun q call bytes hq => ?_, fun result hresult => ?_⟩
    · rcases h.waiting q call bytes hq with ⟨hunanswered, hinbox, rfl⟩ | ⟨hunanswered, -⟩
      · rw [hunanswered] at hget
        cases index with
        | zero =>
          cases hget
          refine .inr ⟨by simp [hunanswered], a, [], by simp, htype, by simp [hinbox], taken_nil⟩
        | succ index => cases hget
      · rw [hunanswered] at hget
        cases hget
    · obtain ⟨e, hanswered, hrest⟩ := h.returned result hresult
      exact ⟨e, List.mem_append_left _ hanswered, hrest⟩

theorem Inv.step {a : Action n} (hexclusive : s.Exclusive a)
    (hfinal : s.step a = some final) : final.Inv := by
  cases a with
  | thread p e => exact h.stepThread hexclusive hfinal
  | background e => exact h.handleConn hexclusive hfinal
  | peer index a => exact h.answer hfinal

end State

theorem sendRPC_returns_own_answer {n : ℕ} {s : State n}
    (hreach : (connection n).ReachableBy State.Exclusive s) {id : ℕ} {type : RequestType}
    {payload : Bytes} (hreturned : (id, type, payload) ∈ s.returned) :
    ∃ e, (id, e) ∈ s.answered ∧ e.type = type.responseCode ∧ payload = e.payload := by
  have hinv := hreach.invariant State.Inv (fun s hinit => hinit ▸ State.inv_initial)
    fun s a next h hexclusive hstep => h.step hexclusive hstep
  exact hinv.returned _ hreturned

def heartbeatAnswer : Answer := .appendEntries 1 true 0

def requestSteps {n : ℕ} (p : Fin n) (type : RequestType) : List (Action n) :=
  [.thread p (.call type []), .thread p (.write .ok)]

def answerSteps {n : ℕ} (p : Fin n) (a : Answer) : List (Action n) :=
  .peer 0 a :: List.replicate a.envelope.encode.length (.thread p .read)

theorem sendRPC_returns_own_answer_twoCalls :
    ∃ s : State 2, (connection 2).ReachableBy State.Exclusive s ∧
      s.returned.map (fun result => (result.1, result.2.1)) =
        [(0, .appendEntries), (1, .requestVote)] ∧
      ∀ id type payload, (id, type, payload) ∈ s.returned →
        ∃ e, (id, e) ∈ s.answered ∧ e.type = type.responseCode ∧ payload = e.payload := by
  have hrun : ((connection 2).runBy State.Exclusive .initial
      (requestSteps 0 .appendEntries ++ answerSteps 0 heartbeatAnswer ++
        requestSteps 1 .requestVote ++ answerSteps 1 (.requestVote 1 true))).map
      (fun s => s.returned.map fun result => (result.1, result.2.1)) =
      some [(0, .appendEntries), (1, .requestVote)] := by
    decide +kernel
  obtain ⟨s, hreach, hreturned⟩ := TransitionSystem.exists_reachableBy rfl hrun
  exact ⟨s, hreach, hreturned, fun id type payload hmem => sendRPC_returns_own_answer hreach hmem⟩

theorem sendRPC_returns_other_answer : ∃ s : State 2, (connection 2).Reachable s ∧
      ∃ id type payload, (id, type, payload) ∈ s.returned ∧
        ¬ ∃ e, (id, e) ∈ s.answered ∧ e.type = RequestType.responseCode type ∧
          payload = e.payload := by
  have hrun : ((connection 2).runFrom .initial
      (requestSteps 0 .appendEntries ++ requestSteps 1 .requestVote ++
        answerSteps 1 heartbeatAnswer)).map
        (fun s => (s.returned, s.answered.map Prod.fst)) =
      some ([(1, .requestVote, heartbeatAnswer.payload)], [0]) := by
    decide +kernel
  obtain ⟨s, hreach, hfinal⟩ := TransitionSystem.exists_reachableBy rfl hrun
  injection hfinal with hreturned hanswered
  refine ⟨s, hreach, 1, _, _, hreturned ▸ List.mem_singleton_self _, ?_⟩
  rintro ⟨e, hmem, -⟩
  have hid : 1 ∈ s.answered.map Prod.fst := List.mem_map_of_mem hmem
  rw [hanswered] at hid
  cases List.mem_singleton.mp hid

end MCache.Net.PeerConnection
