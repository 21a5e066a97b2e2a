import Khive.Wire.Handshake
import Khive.Wire.RoundTrip

/-!
# Connections

A connection is the two handshake gates, one queue in each direction, and the two logs of what the
gates answered. Either party may send at any time, and deliveries take the head of a queue. The
client may send anything, any number of handshakes included, and may record any version at any
time. The server may send anything apart from a `handshake_ack`, which only its gate produces.

## The invariant

While the server gate is complete its log is one acceptance followed by admissions, and every
acknowledgement under way to the client names the one version in the server log.
-/

namespace Khive

namespace Wire

variable {lib : SerdeJson}

/-! ## The connection -/

abbrev ServerResult (lib : SerdeJson) := Except (HandshakeSequenceError lib) (HandshakeOutcome lib)

abbrev ClientResult (lib : SerdeJson) := Except (HandshakeSequenceError lib) ClientHandshakeOutcome

/-- The frame that the server sends on a result of its gate. -/
def ServerResult.reply : ServerResult lib → List (Frame lib)
  | .ok (.accepted ack _) => [ack]
  | .ok (.rejected error) => [error]
  | .ok .admitted => []
  | .error violation => [violation.error]

structure Connection (lib : SerdeJson) where
  client : ClientHandshakeGate
  server : HandshakeGate
  /-- The frames under way to the server, oldest first. -/
  toServer : List (Frame lib)
  /-- The frames under way to the client, oldest first. -/
  toClient : List (Frame lib)
  /-- The frames that the server gate was fed, each with its result. -/
  serverLog : List (Frame lib × ServerResult lib)
  /-- The frames that the client gate was fed, each with its result. -/
  clientLog : List (Frame lib × ClientResult lib)

namespace Connection

/-- A new connection to a server of these versions. -/
def new (supported : SupportedVersions) : Connection lib :=
  ⟨.new, .new supported, [], [], [], []⟩

/-- The server takes a frame from its queue, and sends what its gate returns. -/
def deliverToServer (c : Connection lib) (frame : Frame lib) (rest : List (Frame lib)) :
    Connection lib :=
  let result := (c.server.admitFrame frame).2
  { c with
    server := (c.server.admitFrame frame).1
    toServer := rest
    toClient := c.toClient ++ ServerResult.reply result
    serverLog := c.serverLog ++ [(frame, result)] }

/-- The client takes a frame from its queue. -/
def deliverToClient (c : Connection lib) (frame : Frame lib) (rest : List (Frame lib)) :
    Connection lib :=
  { c with
    client := (c.client.admitFrame frame).1
    toClient := rest
    clientLog := c.clientLog ++ [(frame, (c.client.admitFrame frame).2)] }

inductive Step : Connection lib → Connection lib → Prop
  | clientSend (c : Connection lib) (frame : Frame lib) :
      Step c { c with toServer := c.toServer ++ [frame] }
  | clientRecord (c : Connection lib) (offered : ProtocolVersion) :
      Step c { c with client := (c.client.recordHandshakeSent offered).1 }
  | serverSend (c : Connection lib) (frame : Frame lib) (h : frame.kind ≠ .handshakeAck) :
      Step c { c with toClient := c.toClient ++ [frame] }
  | deliverToServer (c : Connection lib) (frame : Frame lib) (rest : List (Frame lib))
      (h : c.toServer = frame :: rest) : Step c (c.deliverToServer frame rest)
  | deliverToClient (c : Connection lib) (frame : Frame lib) (rest : List (Frame lib))
      (h : c.toClient = frame :: rest) : Step c (c.deliverToClient frame rest)

/-- Any number of steps, in any order. -/
abbrev Reaches : Connection lib → Connection lib → Prop := Relation.ReflTransGen Step

end Connection

/-- The entry of an accepted handshake. -/
def acceptance (version : ProtocolVersion) : Frame lib × ServerResult lib :=
  (.handshake version, .ok (.accepted (.handshakeAck version) version))

/-- The versions that a server log accepts, in turn. -/
def acceptedVersions (log : List (Frame lib × ServerResult lib)) : List ProtocolVersion :=
  log.filterMap fun entry ↦
    match entry.2 with
    | .ok (.accepted _ version) => some version
    | _ => none

/-- Results that are violations: a refused handshake or a sequence error. -/
def ServerResult.IsViolation : ServerResult lib → Prop
  | .ok (.rejected _) | .error _ => True
  | .ok (.accepted ..) | .ok .admitted => False

/-- Every admitted frame is no handshake, and comes after exactly one acceptance and no violation. -/
def AdmittedInOrder (log : List (Frame lib × ServerResult lib)) : Prop :=
  ∀ before frame after, log = before ++ (frame, .ok .admitted) :: after →
    frame.kind ≠ .handshake ∧ (∃ version, acceptedVersions before = [version]) ∧
      ∀ entry ∈ before, ¬ ServerResult.IsViolation entry.2

/-- A log stays in order under an entry that is no admission, or an admission at its place. -/
theorem AdmittedInOrder.append {log : List (Frame lib × ServerResult lib)}
    (hlog : AdmittedInOrder log) (frame : Frame lib) (result : ServerResult lib)
    (hresult : result = .ok .admitted → frame.kind ≠ .handshake ∧
      (∃ version, acceptedVersions log = [version]) ∧
        ∀ entry ∈ log, ¬ ServerResult.IsViolation entry.2) :
    AdmittedInOrder (log ++ [(frame, result)]) := by
  intro before frame' after heq
  obtain rfl | ⟨later, last, rfl⟩ := after.eq_nil_or_concat
  · -- the admission is the new entry
    obtain ⟨rfl, hlast⟩ := List.append_inj' heq rfl
    obtain ⟨rfl, rfl⟩ : frame = frame' ∧ result = .ok .admitted := by simpa using hlast
    exact hresult rfl
  · have hsplit : log ++ [(frame, result)] =
        (before ++ (frame', .ok .admitted) :: later) ++ [last] := by simpa using heq
    exact hlog before frame' later (List.append_inj' hsplit rfl).1

theorem acceptedVersions_append_admitted (log : List (Frame lib × ServerResult lib))
    (frame : Frame lib) :
    acceptedVersions (log ++ [(frame, .ok .admitted)]) = acceptedVersions log := by
  simp [acceptedVersions]

theorem acceptedVersions_append_violation (log : List (Frame lib × ServerResult lib))
    (frame : Frame lib) {result : ServerResult lib} (h : result.IsViolation) :
    acceptedVersions (log ++ [(frame, result)]) = acceptedVersions log := by
  match result, h with
  | .ok (.rejected _), _ => simp [acceptedVersions]
  | .error _, _ => simp [acceptedVersions]

/-- One acceptance, then admissions. -/
theorem acceptedVersions_acceptance {version : ProtocolVersion}
    {admissions : List (Frame lib × ServerResult lib)}
    (h : ∀ entry ∈ admissions, entry.2 = .ok .admitted) :
    acceptedVersions (acceptance version :: admissions) = [version] := by
  have hnone : acceptedVersions admissions = [] := by
    refine List.filterMap_eq_nil_iff.mpr fun entry hentry ↦ ?_
    rw [h entry hentry]
  simpa [acceptedVersions, acceptance] using hnone

/-! ## The invariant -/

namespace Connection

/-- The one version that the server of the connection accepted. -/
def Accepted (supported : SupportedVersions) (c : Connection lib) (version : ProtocolVersion) :
    Prop :=
  acceptedVersions c.serverLog = [version] ∧ supported.contains version = true

structure Agrees (supported : SupportedVersions) (c : Connection lib) : Prop where
  supported_eq : c.server.supported = supported
  awaiting : c.server.state = .awaitingHandshake → c.serverLog = []
  completed : ∀ version, c.server.state = .completed version →
    supported.contains version = true ∧ ∃ admissions,
      c.serverLog = acceptance version :: admissions ∧
        ∀ entry ∈ admissions, entry.2 = .ok .admitted
  admitted : AdmittedInOrder c.serverLog
  acknowledged : ∀ version, Frame.handshakeAck version ∈ c.toClient → c.Accepted supported version
  client_completed : ∀ version, c.client.state = .completed version → c.Accepted supported version
  client_log : ∀ frame version, (frame, .ok (.completed version)) ∈ c.clientLog →
    c.Accepted supported version

theorem agrees_new (supported : SupportedVersions) : Agrees supported (new supported : Connection lib) where
  supported_eq := rfl
  awaiting _ := rfl
  completed := by simp [new, HandshakeGate.new]
  admitted := by simp [AdmittedInOrder, new]
  acknowledged := by simp [new]
  client_completed := by simp [new, ClientHandshakeGate.new]
  client_log := by simp [new]

section Deliver

variable {supported : SupportedVersions} {c : Connection lib}

/-- A gate that has completed has accepted its version, with no violation since. -/
theorem Agrees.accepted_of_completed (hc : Agrees supported c) {version : ProtocolVersion}
    (h : c.server.state = .completed version) :
    c.Accepted supported version ∧ ∀ entry ∈ c.serverLog, ¬ ServerResult.IsViolation entry.2 := by
  obtain ⟨hversion, admissions, hlog, hadmissions⟩ := hc.completed version h
  refine ⟨⟨?_, hversion⟩, ?_⟩
  · rw [hlog, acceptedVersions_acceptance hadmissions]
  · rw [hlog]
    intro entry hentry
    rcases List.mem_cons.mp hentry with rfl | hentry
    · exact id
    · rw [hadmissions entry hentry]
      exact id

/-- The server keeps what it accepted, whatever the gate answers after the handshake. -/
theorem Agrees.of_acceptedVersions (hc : Agrees supported c) {c' : Connection lib}
    (hlog : acceptedVersions c'.serverLog = acceptedVersions c.serverLog)
    (hclient : c'.client = c.client) (hclientLog : c'.clientLog = c.clientLog)
    (htoClient : ∀ version, Frame.handshakeAck version ∈ c'.toClient →
      Frame.handshakeAck version ∈ c.toClient)
    (hsupported : c'.server.supported = supported)
    (hawaiting : c'.server.state = .awaitingHandshake → c'.serverLog = [])
    (hcompleted : ∀ version, c'.server.state = .completed version →
      supported.contains version = true ∧ ∃ admissions,
        c'.serverLog = acceptance version :: admissions ∧
          ∀ entry ∈ admissions, entry.2 = .ok .admitted)
    (hadmitted : AdmittedInOrder c'.serverLog) : Agrees supported c' := by
  have haccepted : ∀ version, c.Accepted supported version → c'.Accepted supported version :=
    fun version h ↦ ⟨hlog.trans h.1, h.2⟩
  refine ⟨hsupported, hawaiting, hcompleted, hadmitted, ?_, ?_, ?_⟩
  · exact fun version h ↦ haccepted version (hc.acknowledged version (htoClient version h))
  · exact fun version h ↦ haccepted version (hc.client_completed version (hclient ▸ h))
  · exact fun frame version h ↦ haccepted version (hc.client_log frame version (hclientLog ▸ h))

/-- A violation closes the gate, and its reply acknowledges nothing. -/
theorem Agrees.deliverToServer_violation (hc : Agrees supported c) (frame : Frame lib)
    (rest : List (Frame lib)) {reason : CloseReason} {result : ServerResult lib}
    (hadmits : c.server.admitFrame frame = (⟨.closed reason, c.server.supported⟩, result))
    (hresult : result.IsViolation) (hreply : ∀ reply ∈ result.reply, reply.kind = .error) :
    Agrees supported (c.deliverToServer frame rest) := by
  refine hc.of_acceptedVersions ?_ rfl rfl ?_ ?_ ?_ ?_ ?_
  · exact acceptedVersions_append_violation _ _ (by rw [hadmits]; exact hresult)
  · intro w hw
    have hmem : Frame.handshakeAck w ∈ c.toClient ∨ Frame.handshakeAck w ∈ result.reply := by
      simpa [Connection.deliverToServer, hadmits] using hw
    refine hmem.resolve_right fun h ↦ ?_
    have hkind := hreply _ h
    simp [Frame.kind] at hkind
  · simp [Connection.deliverToServer, hadmits, hc.supported_eq]
  · simp [Connection.deliverToServer, hadmits]
  · simp [Connection.deliverToServer, hadmits]
  · refine hc.admitted.append _ _ fun h ↦ ?_
    rw [hadmits] at h
    simp only at h
    rw [h] at hresult
    exact hresult.elim

theorem Agrees.deliverToServer (hc : Agrees supported c) (frame : Frame lib)
    (rest : List (Frame lib)) : Agrees supported (c.deliverToServer frame rest) := by
  rcases c.server.admitFrame_cases frame with ⟨version, hstate, rfl, hversion, hadmits⟩ |
    ⟨reason, error, hstate, -, herror, hadmits⟩ | ⟨version, hstate, hkind, hadmits⟩ |
    ⟨reason, message, -, hadmits⟩
  · -- the log was empty, so no acknowledgement was under way and the client had not completed
    have hlog : c.serverLog = [] := hc.awaiting hstate
    have hnone : ∀ w, ¬ c.Accepted supported w := by
      intro w hw
      simp [Accepted, hlog, acceptedVersions] at hw
    have haccepted : (c.deliverToServer (.handshake version) rest).Accepted supported version := by
      refine ⟨?_, hc.supported_eq ▸ hversion⟩
      simp [Connection.deliverToServer, hadmits, hlog, acceptedVersions]
    refine ⟨?_, ?_, ?_, ?_, ?_, ?_, ?_⟩
    · simp [Connection.deliverToServer, hadmits, hc.supported_eq]
    · simp [Connection.deliverToServer, hadmits]
    · intro w hw
      obtain rfl : version = w := by simpa [Connection.deliverToServer, hadmits] using hw
      refine ⟨haccepted.2, [], ?_, by simp⟩
      simp [Connection.deliverToServer, hadmits, hlog, acceptance]
    · exact hc.admitted.append _ _ (by simp [hadmits])
    · intro w hw
      have hmem : Frame.handshakeAck w ∈ c.toClient ∨ w = version := by
        simpa [Connection.deliverToServer, hadmits, ServerResult.reply] using hw
      rcases hmem with hmem | rfl
      · exact absurd (hc.acknowledged w hmem) (hnone w)
      · exact haccepted
    · exact fun w hw ↦ absurd (hc.client_completed w hw) (hnone w)
    · exact fun f w hw ↦ absurd (hc.client_log f w hw) (hnone w)
  · exact hc.deliverToServer_violation frame rest hadmits trivial
      (by simpa [ServerResult.reply] using herror)
  · obtain ⟨haccepted, hviolations⟩ := hc.accepted_of_completed hstate
    refine hc.of_acceptedVersions ?_ rfl rfl ?_ ?_ ?_ ?_ ?_
    · simp only [Connection.deliverToServer, hadmits]
      exact acceptedVersions_append_admitted _ _
    · simp [Connection.deliverToServer, hadmits, ServerResult.reply]
    · simp [Connection.deliverToServer, hadmits, hc.supported_eq]
    · simp [Connection.deliverToServer, hadmits, hstate]
    · intro w hw
      obtain ⟨hw', admissions, hlog, hadmissions⟩ :=
        hc.completed w (by simpa [Connection.deliverToServer, hadmits] using hw)
      refine ⟨hw', admissions ++ [(frame, .ok .admitted)], ?_, ?_⟩
      · simp [Connection.deliverToServer, hadmits, hlog]
      · intro entry hentry
        rcases List.mem_append.mp hentry with hentry | hentry
        · exact hadmissions entry hentry
        · rw [List.mem_singleton.mp hentry]
    · exact hc.admitted.append _ _ fun _ ↦ ⟨hkind, ⟨version, haccepted.1⟩, hviolations⟩
  · exact hc.deliverToServer_violation frame rest hadmits trivial
      (by simp [ServerResult.reply, HandshakeSequenceError.malformed, Frame.kind])

theorem Agrees.deliverToClient (hc : Agrees supported c) {frame : Frame lib}
    {rest : List (Frame lib)} (hqueue : c.toClient = frame :: rest) :
    Agrees supported (c.deliverToClient frame rest) := by
  have hrest : ∀ version, Frame.handshakeAck version ∈ rest → c.Accepted supported version :=
    fun version h ↦ hc.acknowledged version (hqueue ▸ List.mem_cons_of_mem frame h)
  -- only an acknowledgement completes the gate, and it was under way
  have hcompletes : ∀ version, (c.client.admitFrame frame).2 = .ok (.completed version) →
      c.Accepted supported version := by
    intro version h
    rcases c.client.admitFrame_cases frame with ⟨w, rfl, hadmits⟩ | ⟨w, -, hadmits⟩ | ⟨reason, -, hadmits⟩ |
      ⟨reason, message, -, hadmits⟩
    · obtain rfl : w = version := by simpa [hadmits] using h
      exact hc.acknowledged w (hqueue ▸ List.mem_cons_self)
    · simp [hadmits] at h
    · simp [hadmits] at h
    · simp [hadmits] at h
  refine ⟨hc.supported_eq, hc.awaiting, hc.completed, hc.admitted, hrest, ?_, ?_⟩
  · intro version h
    change (c.client.admitFrame frame).1.state = .completed version at h
    rcases c.client.admitFrame_cases frame with ⟨w, rfl, hadmits⟩ | ⟨w, -, hadmits⟩ | ⟨reason, -, hadmits⟩ |
      ⟨reason, message, -, hadmits⟩
    · obtain rfl : w = version := by simpa [hadmits] using h
      exact hcompletes w (by rw [hadmits])
    · exact hc.client_completed version (by simpa [hadmits] using h)
    · simp [hadmits] at h
    · simp [hadmits] at h
  · intro frame' version h
    rcases List.mem_append.mp h with h | h
    · exact hc.client_log frame' version h
    · exact hcompletes version (congrArg Prod.snd (List.mem_singleton.mp h)).symm

theorem Agrees.step (hc : Agrees supported c) {c' : Connection lib} (h : Step c c') :
    Agrees supported c' := by
  cases h with
  | clientSend frame => exact { hc with }
  | clientRecord offered =>
    refine { hc with client_completed := fun version h ↦ ?_ }
    rcases c.client.recordHandshakeSent_cases offered with heq | ⟨-, heq⟩
    · exact hc.client_completed version (by simpa [heq] using h)
    · simp [heq] at h
  | serverSend frame hkind =>
    refine { hc with acknowledged := fun version h ↦ ?_ }
    rcases List.mem_append.mp h with h | h
    · exact hc.acknowledged version h
    · rw [← List.mem_singleton.mp h] at hkind
      exact absurd rfl hkind
  | deliverToServer frame rest hqueue => exact hc.deliverToServer frame rest
  | deliverToClient frame rest hqueue => exact hc.deliverToClient hqueue

theorem Agrees.reaches (hc : Agrees supported c) {c' : Connection lib} (h : Reaches c c') :
    Agrees supported c' := by
  induction h with
  | refl => exact hc
  | tail _ hstep ih => exact ih.step hstep

end Deliver

/-! ## Closed gates -/

/-- The gate is as it was, and has refused everything since. -/
def Shut {γ μ ε α : Type} (gate gate' : γ) (log log' : List (μ × Except ε α)) : Prop :=
  gate' = gate ∧ ∃ later, log' = log ++ later ∧ ∀ entry ∈ later, ∃ violation, entry.2 = .error violation

section Shut

variable {γ μ ε α : Type} {gate gate' gate'' : γ} {log log' log'' : List (μ × Except ε α)}

theorem shut_of_eq (hgate : gate' = gate) (hlog : log' = log) : Shut gate gate' log log' :=
  ⟨hgate, [], by simpa using hlog, by simp⟩

theorem shut_of_error (gate : γ) (log : List (μ × Except ε α)) (message : μ) (violation : ε) :
    Shut gate gate log (log ++ [(message, .error violation)]) :=
  ⟨rfl, _, rfl, by simp⟩

theorem Shut.trans (h : Shut gate gate' log log') (h' : Shut gate' gate'' log' log'') :
    Shut gate gate'' log log'' := by
  obtain ⟨hgate, later, hlog, hlater⟩ := h
  obtain ⟨hgate', later', hlog', hlater'⟩ := h'
  refine ⟨hgate'.trans hgate, later ++ later', by rw [hlog', hlog, List.append_assoc], ?_⟩
  intro entry hentry
  exact (List.mem_append.mp hentry).elim (hlater entry) (hlater' entry)

end Shut

/-- What a closed server gate comes to. -/
def ServerShut (c c' : Connection lib) : Prop := Shut c.server c'.server c.serverLog c'.serverLog

/-- What a closed client gate comes to. -/
def ClientShut (c c' : Connection lib) : Prop := Shut c.client c'.client c.clientLog c'.clientLog

section Closed

variable {c c' : Connection lib}

theorem Step.serverShut (h : Step c c') (hclosed : c.server.IsClosed) : ServerShut c c' := by
  obtain ⟨reason, hstate⟩ := hclosed
  cases h with
  | deliverToServer frame rest hqueue =>
    have hadmits : c.server.admitFrame frame = (c.server,
        .error (.malformed ("connection already closed by " ++ reason.phrase))) := by
      simp [HandshakeGate.admitFrame, hstate]
    simp only [ServerShut, Connection.deliverToServer, hadmits]
    exact shut_of_error _ _ _ _
  | clientSend | clientRecord | serverSend | deliverToClient => exact shut_of_eq rfl rfl

theorem Step.clientShut (h : Step c c') (hclosed : c.client.IsClosed) : ClientShut c c' := by
  obtain ⟨reason, hstate⟩ := hclosed
  cases h with
  | deliverToClient frame rest hqueue =>
    have hadmits : c.client.admitFrame frame = (c.client,
        .error (.malformed ("connection already closed by " ++ reason.phrase))) := by
      simp [ClientHandshakeGate.admitFrame, hstate]
    simp only [ClientShut, Connection.deliverToClient, hadmits]
    exact shut_of_error _ _ _ _
  | clientRecord offered =>
    exact shut_of_eq (by simp [ClientHandshakeGate.recordHandshakeSent, hstate]) rfl
  | clientSend | serverSend | deliverToServer => exact shut_of_eq rfl rfl

theorem Reaches.serverShut (h : Reaches c c') (hclosed : c.server.IsClosed) : ServerShut c c' := by
  induction h with
  | refl => exact shut_of_eq rfl rfl
  | tail _ hstep ih => exact ih.trans (hstep.serverShut (ih.1 ▸ hclosed))

theorem Reaches.clientShut (h : Reaches c c') (hclosed : c.client.IsClosed) : ClientShut c c' := by
  induction h with
  | refl => exact shut_of_eq rfl rfl
  | tail _ hstep ih => exact ih.trans (hstep.clientShut (ih.1 ▸ hclosed))

end Closed

/-! ## Agreement -/

/-- **Handshake agreement.** On every connection that any order of sends and deliveries leads to,
the server has admitted frames only after one accepted handshake and no violation, the client
completes only with the version that the server accepted, and closed gates stay closed. -/
theorem handshake_agreement (supported : SupportedVersions) (c : Connection lib)
    (hc : Reaches (new supported) c) :
    AdmittedInOrder c.serverLog ∧
      (∀ frame version, (frame, .ok (.completed version)) ∈ c.clientLog →
        c.Accepted supported version) ∧
      (∀ version, c.client.acceptedVersion = some version → c.Accepted supported version) ∧
      (∀ version version', c.client.acceptedVersion = some version →
        c.server.acceptedVersion = some version' →
          version = version' ∧ supported.contains version = true) ∧
      ∀ c', Reaches c c' → (c.server.IsClosed → ServerShut c c') ∧
        (c.client.IsClosed → ClientShut c c') := by
  have hagrees : Agrees supported c := (agrees_new supported).reaches hc
  have hclient : ∀ version, c.client.acceptedVersion = some version →
      c.Accepted supported version := by
    intro version h
    refine hagrees.client_completed version ?_
    unfold ClientHandshakeGate.acceptedVersion at h
    split at h <;> simp_all
  refine ⟨hagrees.admitted, hagrees.client_log, hclient, ?_, ?_⟩
  · intro version version' h h'
    have hserver : c.server.state = .completed version' := by
      unfold HandshakeGate.acceptedVersion at h'
      split at h' <;> simp_all
    have haccepted := hclient version h
    have heq : [version] = [version'] :=
      haccepted.1.symm.trans (hagrees.accepted_of_completed hserver).1.1
    exact ⟨List.singleton_inj.mp heq, haccepted.2⟩
  · exact fun c' h ↦ ⟨h.serverShut, h.clientShut⟩

/-- A handshake of version 1 completes on both sides, and then a cancellation is admitted. -/
theorem handshake_agreement_version_one : ∃ c : Connection strictJson,
    Reaches (new .current) c ∧ c.client.acceptedVersion = some ⟨1⟩ ∧
      c.server.acceptedVersion = some ⟨1⟩ ∧ c.serverLog.length = 2 ∧
      AdmittedInOrder c.serverLog ∧ SupportedVersions.current.contains ⟨1⟩ = true := by
  let offer : Connection strictJson :=
    { (new .current : Connection strictJson) with toServer := [.handshake ⟨1⟩, .cancel ⟨"a"⟩] }
  let waiting : Connection strictJson := { offer with client := ⟨.outstanding ⟨1⟩⟩ }
  let answered := waiting.deliverToServer (.handshake ⟨1⟩) [.cancel ⟨"a"⟩]
  let complete := answered.deliverToClient (.handshakeAck ⟨1⟩) []
  let admitted := complete.deliverToServer (.cancel ⟨"a"⟩) []
  have hrun : Reaches (new .current) admitted :=
    ((((((Relation.ReflTransGen.single (Step.clientSend _ (.handshake ⟨1⟩))).tail
      (Step.clientSend _ (.cancel ⟨"a"⟩))).tail (Step.clientRecord offer ⟨1⟩)).tail
      (Step.deliverToServer waiting _ _ rfl)).tail (Step.deliverToClient answered _ _ rfl)).tail
      (Step.deliverToServer complete _ _ rfl))
  have hall := handshake_agreement .current admitted hrun
  exact ⟨admitted, hrun, rfl, rfl, rfl, hall.1, (hall.2.2.2.1 ⟨1⟩ ⟨1⟩ rfl rfl).2⟩

end Connection

end Wire

end Khive
