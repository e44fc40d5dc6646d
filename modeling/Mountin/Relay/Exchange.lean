import Mathlib.Logic.Relation
import Mountin.Relay.Armored

set_option autoImplicit false

/-! # Clients and the guest

The whole relay: clients, one after the other; `start-9p.py`, which sends each request to the guest
as a record and waits for the response; `stream64`, which decodes the records for a process and
encodes what that process writes; the process, which answers each request with a message. The
parties take their steps in any order, and what is on the way can be read in any fragments.

* `Step` : the steps of the parties.
* `Relays` : what the two ends agree on.
* `relays_of_short` : they agree as long as no request is longer than `LONGEST`.
* `long_request_lost` : a longer one ends the decoder, and the client waits for ever.
-/

namespace Mountin.Relay

open Stream64 ArmoredStream

/-! ## The parties -/

/-- What the host does: `main` waits for a client; `relay_client` reads a request, or the response to
one; an exception has ended `main`. A client has a number, and a stream still to be read. -/
inductive Control where
  | accepting
  | serving (client : Nat) (stream : List Fragment)
  | awaiting (client : Nat) (stream : List Fragment)
  | raised

/-- How `client.sendall(response)` ends: the client has it, or there was a `BrokenPipeError`, or
another `OSError`. -/
inductive Delivery where
  | delivered
  | brokenPipe
  | failed

/-- What `relay_client` and `main` do then. -/
def Delivery.control (client : Nat) (stream : List Fragment) : Delivery → Control
  | .delivered => .serving client stream
  | .brokenPipe => .accepting
  | .failed => .raised

/-- An exchange that is over. -/
structure Exchange where
  client : Nat
  response : Bytes
  delivery : Delivery

/-- A message the process in the guest answers with. -/
abbrev Message : Type := { message : Bytes // Accepted message }

/-- The state of all parties, with what is on the way between them and what has happened. -/
structure World (σ : Type) where
  /-- Clients that are not accepted yet, and the number of those that are. -/
  waiting : List (List Fragment)
  accepted : Nat
  control : Control
  guest : ArmoredStream
  /-- The channel to the guest. -/
  toGuest : Bytes
  /-- The buffer of `decode_input`, and whether its loop goes on. -/
  capacity : Nat
  decoding : Bool
  /-- The process in the guest, with its input and its output. -/
  input : Bytes
  server : σ
  output : Bytes
  /-- The channel from the guest. -/
  toRelay : Bytes
  sent : List (Nat × Bytes)
  received : List Bytes
  finished : List Exchange

namespace World

variable {σ : Type}

/-- Before the first client. -/
def init (server : σ) (clients : List (List Fragment)) : World σ where
  waiting := clients
  accepted := 0
  control := .accepting
  guest := ⟨[], []⟩
  toGuest := []
  capacity := 4096
  decoding := true
  input := []
  server
  output := []
  toRelay := []
  sent := []
  received := []
  finished := []

end World

section

variable {σ : Type} (serve : σ → Bytes → Message × σ)

/-- A step of one of the parties. -/
inductive Step : World σ → World σ → Prop
  /-- `listener.accept()`. -/
  | accept {w : World σ} {stream : List Fragment} {waiting : List (List Fragment)}
      (hcontrol : w.control = .accepting) (hwaiting : w.waiting = stream :: waiting) :
      Step w { w with
        waiting
        accepted := w.accepted + 1
        control := .serving w.accepted stream }
  /-- `read_message(client)` and `guest.send(request)`. -/
  | request {w : World σ} {client : Nat} {stream rest : List Fragment} {message : Bytes}
      (hcontrol : w.control = .serving client stream)
      (hread : readMessage stream = .ok (message, rest)) :
      Step w { w with
        control := .awaiting client rest
        toGuest := w.toGuest ++ recordOf message
        sent := w.sent ++ [(client, message)] }
  /-- The client ends its stream, also in the middle of a message. -/
  | hangUp {w : World σ} {client : Nat} {stream : List Fragment}
      (hcontrol : w.control = .serving client stream) (hread : readMessage stream = .error .eof) :
      Step w { w with control := .accepting }
  /-- The size of a message is invalid. -/
  | refuse {w : World σ} {client : Nat} {stream : List Fragment} {e : Failure}
      (hcontrol : w.control = .serving client stream) (hread : readMessage stream = .error e)
      (he : e ≠ .eof) :
      Step w { w with control := .raised }
  /-- `recv` raises. -/
  | reset {w : World σ} {client : Nat} {stream : List Fragment}
      (hcontrol : w.control = .serving client stream) :
      Step w { w with control := .raised }
  /-- `decode_input` takes a line, in whatever reads. -/
  | line {w : World σ} {reads rest : List ReadByte} {record : Bytes} {next : Nat}
      (hdecoding : w.decoding = true) (hreads : arrived reads = w.toGuest)
      (hfailed : .failed ∉ reads)
      (hread : readRecord reads [] w.capacity = some (record, next, rest)) :
      Step w { w with
        toGuest := arrived rest
        capacity := next
        input := w.input ++ linePayload record }
  /-- `read_record` fails on a line: the loop of `decode_input` ends. -/
  | overflow {w : World σ} {reads : List ReadByte}
      (hdecoding : w.decoding = true) (hreads : arrived reads = w.toGuest)
      (hfailed : .failed ∉ reads) (hline : NEWLINE ∈ w.toGuest)
      (hread : readRecord reads [] w.capacity = none) :
      Step w { w with decoding := false }
  /-- The process answers a message. -/
  | answer {w : World σ} {message rest : Bytes}
      (hread : takeMessage w.input = some (message, rest)) :
      Step w { w with
        input := rest
        server := (serve w.server message).2
        output := w.output ++ (serve w.server message).1.1
        received := w.received ++ [message] }
  /-- `encode_output` encodes what a read returns. -/
  | encode {w : World σ} {fragment rest : Bytes} (houtput : w.output = fragment ++ rest)
      (hne : fragment ≠ []) (hle : fragment.length ≤ 4096) :
      Step w { w with
        output := rest
        toRelay := w.toRelay ++ recordOf fragment }
  /-- `guest.read_message()` and `client.sendall(response)`. -/
  | respond {w : World σ} {client : Nat} {stream channel rest : List Fragment} {response : Bytes}
      {guest : ArmoredStream} (delivery : Delivery)
      (hcontrol : w.control = .awaiting client stream) (hchannel : text channel = w.toRelay)
      (hread : w.guest.readMessage channel = .ok (response, guest, rest)) :
      Step w { w with
        control := delivery.control client stream
        guest
        toRelay := text rest
        finished := w.finished ++ [⟨client, response, delivery⟩] }
  /-- `guest.read_message()` raises. -/
  | garbled {w : World σ} {client : Nat} {stream channel : List Fragment} {e : Failure}
      (hcontrol : w.control = .awaiting client stream) (hchannel : text channel = w.toRelay)
      (hread : w.guest.readMessage channel = .error e) (he : e ≠ .eof) :
      Step w { w with control := .raised }

/-! ## What the ends agree on -/

/-- What the process answers to requests. -/
def replies (server : σ) : List Bytes → List Bytes
  | [] => []
  | request :: later => (serve server request).1.1 :: replies (serve server request).2 later

/-- The process after requests. -/
def after (server : σ) (requests : List Bytes) : σ :=
  requests.foldl (fun server request => (serve server request).2) server

/-- The requests of a client. -/
def requestsOf (client : Nat) (sent : List (Nat × Bytes)) : List Bytes :=
  (sent.filter (·.1 = client)).map (·.2)

/-- Each request with its client and its reply. -/
def exchanges (server : σ) (sent : List (Nat × Bytes)) : List (Nat × Bytes) :=
  (sent.map (·.1)).zip (replies serve server (sent.map (·.2)))

/-- The two ends agree: each client's requests are sent in order, the decoder goes on, the process
receives what was sent, unchanged and in order, and each exchange that is over gave a client the reply
to its own request. -/
structure Agrees (server : σ) (clients : List (List Fragment)) (w : World σ) : Prop where
  requests : ∀ client,
    requestsOf client w.sent <+: messages (text (clients.getD client []))
  decoding : w.decoding = true
  received : w.received <+: w.sent.map (·.2)
  finished : w.finished.map (fun e => (e.client, e.response)) <+: exchanges serve server w.sent
  one : w.sent.length ≤ w.finished.length + 1

/-- All requests were received and answered, and no client waits. -/
structure Completed (w : World σ) : Prop where
  received : w.received = w.sent.map (·.2)
  finished : w.finished.length = w.sent.length
  ended : w.control = .raised ∨ w.control = .accepting ∧ w.waiting = []

/-- In every state of every run the ends agree; a run that can not go on is complete; and no run goes
on for ever. -/
def Relays (server : σ) (clients : List (List Fragment)) : Prop :=
  (∀ w, Relation.ReflTransGen (Step serve) (.init server clients) w →
    Agrees serve server clients w ∧ ((∀ next, ¬Step serve w next) → Completed w)) ∧
  ¬∃ run : Nat → World σ, run 0 = .init server clients ∧ ∀ i, Step serve (run i) (run (i + 1))

/-! ## The longest request -/

/-- The length of the longest message whose record `read_record` accepts. -/
def LONGEST : Nat := 12582909

theorem length_recordLine_lt_iff (message : Bytes) :
    (recordLine message).length < RECORD_LIMIT ↔ message.length ≤ LONGEST := by
  rw [recordLine, List.length_append, length_encode64, show RECORD_PREFIX.length = 3 from rfl,
    RECORD_LIMIT, LONGEST]
  omega

theorem linesFrom_record {reads : List ReadByte} {message later : Bytes}
    (h : arrived reads = recordOf message ++ later) :
    linesFrom [] (arrived reads) = recordLine message :: linesFrom [] later := by
  have hline := linesFrom_line (newline_notMem_recordLine message) [] later
  rwa [List.nil_append, List.append_assoc, List.singleton_append, ← recordOf_eq, ← h] at hline

/-- **`read_record` accepts the record of a message exactly when the message is not longer.** -/
theorem readRecord_iff {reads : List ReadByte} {message later : Bytes} {capacity : Nat}
    (hcapacity : Doubled capacity) (hpos : 0 < capacity)
    (h : arrived reads = recordOf message ++ later) :
    (∃ next rest, readRecord reads [] capacity = some (recordLine message, next, rest)) ↔
      message.length ≤ LONGEST := by
  rw [← length_recordLine_lt_iff]
  constructor
  · rintro ⟨next, rest, hread⟩
    obtain ⟨k, hk, rfl⟩ := hcapacity
    have hle : 2 ^ k ≤ RECORD_LIMIT := Nat.pow_le_pow_right (by decide) hk
    have hline := length_line_lt hread hpos hle
    exact hline.1.trans_le hline.2
  · intro hline
    obtain ⟨next, rest, hread, -⟩ := exists_readRecord (linesFrom_record h) hline hcapacity
    exact ⟨next, rest, hread⟩

/-- The line of a record that is read, and what is left. -/
theorem readRecord_record {reads rest : List ReadByte} {message line : Bytes} {capacity next : Nat}
    (h : arrived reads = recordOf message)
    (hread : readRecord reads [] capacity = some (line, next, rest)) :
    line = recordLine message ∧ arrived rest = [] := by
  have hlines := linesFrom_readRecord hread
  obtain ⟨start, -, hstart, harrived⟩ := arrived_readRecord hread
  rw [← List.append_nil (recordOf message)] at h
  rw [linesFrom_record h] at hlines
  have hline : recordLine message = line := (List.cons.inj hlines).1
  rw [List.nil_append] at hstart
  rw [h, recordOf_eq, hline, hstart] at harrived
  exact ⟨hline.symm, (List.cons.inj (List.append_cancel_left harrived)).2.symm⟩

/-! ## Histories -/

theorem length_replies (server : σ) (requests : List Bytes) :
    (replies serve server requests).length = requests.length := by
  induction requests generalizing server with
  | nil => rfl
  | cons request later ih => rw [replies, List.length_cons, ih, List.length_cons]

theorem replies_append (server : σ) (requests later : List Bytes) :
    replies serve server (requests ++ later) =
      replies serve server requests ++ replies serve (after serve server requests) later := by
  induction requests generalizing server with
  | nil => rfl
  | cons request requests ih =>
      rw [List.cons_append, replies, ih, replies, List.cons_append]
      rfl

theorem after_append (server : σ) (requests : List Bytes) (request : Bytes) :
    after serve server (requests ++ [request]) =
      (serve (after serve server requests) request).2 := by
  rw [after, List.foldl_append]
  rfl

/-- One more request has one more reply. -/
theorem exchanges_append (server : σ) (done : List (Nat × Bytes)) (client : Nat) (request : Bytes) :
    exchanges serve server (done ++ [(client, request)]) =
      exchanges serve server done ++
        [(client, (serve (after serve server (done.map (·.2))) request).1.1)] := by
  rw [exchanges, List.map_append, List.map_append, replies_append,
    List.zip_append (by rw [List.length_map, length_replies, List.length_map])]
  rfl

theorem length_exchanges (server : σ) (sent : List (Nat × Bytes)) :
    (exchanges serve server sent).length = sent.length := by
  rw [exchanges, List.length_zip, length_replies, List.length_map, List.length_map, Nat.min_self]

theorem requestsOf_append (client : Nat) (sent : List (Nat × Bytes)) (other : Nat) (request : Bytes) :
    requestsOf client (sent ++ [(other, request)]) =
      requestsOf client sent ++ if other = client then [request] else [] := by
  rw [requestsOf, List.filter_append, List.map_append]
  by_cases h : other = client <;> simp [requestsOf, h]

/-! ## The invariant -/

/-- What is on the way. -/
structure Carries (w : World σ) (toGuest input output toRelay : Bytes) : Prop where
  toGuest : w.toGuest = toGuest
  input : w.input = input
  output : w.output = output
  toRelay : w.toRelay = toRelay

/-- Where the exchange is that comes after those of `done`. -/
inductive Progress (server : σ) (done : List (Nat × Bytes)) (w : World σ) : Prop
  /-- There is none. -/
  | quiet (hcontrol : ∀ client stream, w.control ≠ .awaiting client stream)
      (hsent : w.sent = done) (hreceived : w.received = done.map (·.2))
      (hcarries : Carries w [] [] [] [])
  /-- The request is on the channel. -/
  | asked {client : Nat} {stream : List Fragment} {message : Bytes}
      (hcontrol : w.control = .awaiting client stream) (hsent : w.sent = done ++ [(client, message)])
      (hreceived : w.received = done.map (·.2)) (hcarries : Carries w (recordOf message) [] [] [])
  /-- The request is there for the process. -/
  | decoded {client : Nat} {stream : List Fragment} {message : Bytes}
      (hcontrol : w.control = .awaiting client stream) (hsent : w.sent = done ++ [(client, message)])
      (hreceived : w.received = done.map (·.2)) (hcarries : Carries w [] message [] [])
  /-- The reply is on the way back, a part of it in records. -/
  | answered {client : Nat} {stream : List Fragment} {message output : Bytes}
      (fragments : List Bytes)
      (hcontrol : w.control = .awaiting client stream) (hsent : w.sent = done ++ [(client, message)])
      (hreceived : w.received = (done ++ [(client, message)]).map (·.2))
      (hcarries : Carries w [] [] output (records fragments))
      (hfragments : ∀ fragment ∈ fragments, fragment ≠ [])
      (hreply : fragments.flatten ++ output =
        (serve (after serve server (done.map (·.2))) message).1.1)

/-- The requests of the clients so far, and those that are still to be read. -/
structure Served (clients waiting : List (List Fragment)) (accepted : Nat) (control : Control)
    (sent : List (Nat × Bytes)) : Prop where
  waiting : waiting = clients.drop accepted
  later : ∀ client, accepted ≤ client → requestsOf client sent = []
  prefixes : ∀ client, requestsOf client sent <+: messages (text (clients.getD client []))
  current : ∀ client stream, control = .serving client stream ∨ control = .awaiting client stream →
    client < accepted ∧
      requestsOf client sent ++ messages (text stream) = messages (text (clients.getD client []))

/-- What holds in every state. -/
structure Inv (server : σ) (clients : List (List Fragment)) (w : World σ) : Prop where
  decoding : w.decoding = true
  capacity : Doubled w.capacity
  guest : w.guest = ⟨[], []⟩
  process : w.server = after serve server w.received
  short : ∀ request ∈ w.sent, Accepted request.2 ∧ request.2.length ≤ LONGEST
  served : Served clients w.waiting w.accepted w.control w.sent
  progress : ∃ done, w.finished.map (fun e => (e.client, e.response)) = exchanges serve server done ∧
    Progress serve server done w

/-- No client sends a request that is longer than `LONGEST`. -/
def Short (clients : List (List Fragment)) : Prop :=
  ∀ stream ∈ clients, ∀ message ∈ messages (text stream), message.length ≤ LONGEST

theorem inv_init (server : σ) (clients : List (List Fragment)) :
    Inv serve server clients (.init server clients) where
  decoding := rfl
  capacity := ⟨12, by decide, rfl⟩
  guest := rfl
  process := rfl
  short := fun _ h => nomatch h
  served := by
    refine ⟨rfl, fun _ _ => rfl, fun _ => List.nil_prefix, fun client stream h => ?_⟩
    rcases h with h | h <;> cases h
  progress := ⟨[], rfl, .quiet (fun _ _ h => nomatch h) rfl rfl ⟨rfl, rfl, rfl, rfl⟩⟩

/-! ### The host -/

variable {serve} {server : σ} {clients : List (List Fragment)} {w : World σ}

theorem Served.accept {waiting later : List (List Fragment)} {accepted : Nat} {control : Control}
    {sent : List (Nat × Bytes)} {stream : List Fragment}
    (h : Served clients waiting accepted control sent) (hwaiting : waiting = stream :: later) :
    Served clients later (accepted + 1) (.serving accepted stream) sent := by
  have hdrop : clients.drop accepted = stream :: later := h.waiting.symm.trans hwaiting
  have hget : clients.getD accepted [] = stream := by
    rw [List.getD_eq_getElem?_getD, ← Nat.add_zero accepted, ← List.getElem?_drop, hdrop]
    rfl
  refine ⟨?_, fun client hle => h.later client (Nat.le_of_succ_le hle), h.prefixes, ?_⟩
  · rw [← List.tail_drop, hdrop, List.tail_cons]
  · intro client current hcontrol
    rcases hcontrol with hcontrol | hcontrol
    · obtain ⟨rfl, rfl⟩ := Control.serving.inj hcontrol
      exact ⟨Nat.lt_succ_self _, by rw [h.later accepted (Nat.le_refl _), List.nil_append, hget]⟩
    · cases hcontrol

theorem Served.request {waiting : List (List Fragment)} {accepted client : Nat}
    {sent : List (Nat × Bytes)} {stream rest : List Fragment} {message : Bytes}
    (h : Served clients waiting accepted (.serving client stream) sent)
    (htext : messages (text stream) = message :: messages (text rest)) :
    Served clients waiting accepted (.awaiting client rest) (sent ++ [(client, message)]) := by
  obtain ⟨hlt, hcurrent⟩ := h.current client stream (.inl rfl)
  rw [htext] at hcurrent
  refine ⟨h.waiting, fun other hle => ?_, fun other => ?_, fun other current hcontrol => ?_⟩
  · rw [requestsOf_append, if_neg (by omega), List.append_nil]
    exact h.later other hle
  · rw [requestsOf_append]
    split_ifs with heq
    · subst heq
      exact ⟨messages (text rest), by rw [List.append_assoc]; exact hcurrent⟩
    · rw [List.append_nil]
      exact h.prefixes other
  · rcases hcontrol with hcontrol | hcontrol
    · cases hcontrol
    · obtain ⟨rfl, rfl⟩ := Control.awaiting.inj hcontrol
      rw [requestsOf_append, if_pos rfl, List.append_assoc]
      exact ⟨hlt, hcurrent⟩

theorem Served.resume {waiting : List (List Fragment)} {accepted client : Nat}
    {sent : List (Nat × Bytes)} {stream : List Fragment}
    (h : Served clients waiting accepted (.awaiting client stream) sent) :
    Served clients waiting accepted (.serving client stream) sent := by
  refine ⟨h.waiting, h.later, h.prefixes, fun other current hcontrol => ?_⟩
  rcases hcontrol with hcontrol | hcontrol
  · obtain ⟨rfl, rfl⟩ := Control.serving.inj hcontrol
    exact h.current client stream (.inr rfl)
  · cases hcontrol

theorem Served.leave {waiting : List (List Fragment)} {accepted : Nat} {control next : Control}
    {sent : List (Nat × Bytes)} (h : Served clients waiting accepted control sent)
    (hnext : next = .accepting ∨ next = .raised) : Served clients waiting accepted next sent := by
  refine ⟨h.waiting, h.later, h.prefixes, fun client stream hcontrol => ?_⟩
  rcases hnext with rfl | rfl <;> rcases hcontrol with hcontrol | hcontrol <;> cases hcontrol

/-- While no response is awaited, nothing is on the way. -/
theorem Inv.quiet (h : Inv serve server clients w)
    (hcontrol : ∀ client stream, w.control ≠ .awaiting client stream) :
    w.finished.map (fun e => (e.client, e.response)) = exchanges serve server w.sent ∧
      w.received = w.sent.map (·.2) ∧ Carries w [] [] [] [] := by
  obtain ⟨done, hfinished, hprogress⟩ := h.progress
  cases hprogress with
  | quiet _ hsent hreceived hcarries => exact ⟨hsent ▸ hfinished, hsent ▸ hreceived, hcarries⟩
  | asked hawaiting => exact absurd hawaiting (hcontrol _ _)
  | decoded hawaiting => exact absurd hawaiting (hcontrol _ _)
  | answered _ hawaiting => exact absurd hawaiting (hcontrol _ _)

theorem Inv.leave (h : Inv serve server clients w) {next : Control}
    (hcontrol : ∀ client stream, w.control ≠ .awaiting client stream)
    (hnext : next = .accepting ∨ next = .raised) :
    Inv serve server clients { w with control := next } := by
  obtain ⟨hfinished, hreceived, hcarries⟩ := h.quiet hcontrol
  refine ⟨h.decoding, h.capacity, h.guest, h.process, h.short, h.served.leave hnext, w.sent, hfinished,
    .quiet ?_ rfl hreceived ⟨hcarries.1, hcarries.2, hcarries.3, hcarries.4⟩⟩
  rintro client stream rfl
  rcases hnext with hnext | hnext <;> cases hnext

theorem Inv.accept (h : Inv serve server clients w) {stream : List Fragment}
    {waiting : List (List Fragment)} (hcontrol : w.control = .accepting)
    (hwaiting : w.waiting = stream :: waiting) :
    Inv serve server clients { w with
      waiting
      accepted := w.accepted + 1
      control := .serving w.accepted stream } := by
  obtain ⟨hfinished, hreceived, hcarries⟩ := h.quiet fun _ _ heq => nomatch hcontrol.symm.trans heq
  exact ⟨h.decoding, h.capacity, h.guest, h.process, h.short, h.served.accept hwaiting, w.sent, hfinished,
    .quiet (fun _ _ heq => nomatch heq) rfl hreceived
      ⟨hcarries.1, hcarries.2, hcarries.3, hcarries.4⟩⟩

theorem Short.of_mem (h : Short clients) {client : Nat} {message : Bytes}
    (hmem : message ∈ messages (text (clients.getD client []))) : message.length ≤ LONGEST := by
  rw [List.getD_eq_getElem?_getD] at hmem
  rcases hget : clients[client]? with _ | stream
  · rw [hget] at hmem
    obtain ⟨hm, hlength⟩ := accepted_of_mem_messages hmem
    exact absurd (hm.least.trans hlength) (by decide)
  · rw [hget] at hmem
    exact h stream (List.mem_of_getElem? hget) message hmem

theorem Inv.request (h : Inv serve server clients w) (hshort : Short clients) {client : Nat}
    {stream rest : List Fragment} {message : Bytes} (hcontrol : w.control = .serving client stream)
    (hread : readMessage stream = .ok (message, rest)) :
    Inv serve server clients { w with
      control := .awaiting client rest
      toGuest := w.toGuest ++ recordOf message
      sent := w.sent ++ [(client, message)] } := by
  obtain ⟨hfinished, hreceived, hcarries⟩ := h.quiet fun _ _ heq => nomatch hcontrol.symm.trans heq
  obtain ⟨hm, htext⟩ := readMessage_ok hread
  have hmessages : messages (text stream) = message :: messages (text rest) := by
    rw [htext, messages_append hm]
  have hserved := hcontrol ▸ h.served
  have hmem : message ∈ messages (text (clients.getD client [])) := by
    rw [← (hserved.current client stream (.inl rfl)).2, hmessages]
    exact List.mem_append_right _ List.mem_cons_self
  refine ⟨h.decoding, h.capacity, h.guest, h.process, ?_, hserved.request hmessages, w.sent, hfinished,
    .asked rfl rfl hreceived ⟨?_, hcarries.2, hcarries.3, hcarries.4⟩⟩
  · intro request hrequest
    rcases List.mem_append.mp hrequest with hrequest | hrequest
    · exact h.short request hrequest
    · rw [List.mem_singleton.mp hrequest]
      exact ⟨hm, hshort.of_mem hmem⟩
  · rw [hcarries.1]
    rfl

/-! ### The guest -/

theorem Accepted.ne_nil {message : Bytes} (h : Accepted message) : message ≠ [] := by
  rintro rfl
  exact absurd h.least (by decide)

/-- What lies on the channel to the guest is the record of the last request. -/
theorem Inv.asked (h : Inv serve server clients w) (hline : w.toGuest ≠ []) :
    ∃ done client stream message,
      w.finished.map (fun e => (e.client, e.response)) = exchanges serve server done ∧
      w.control = .awaiting client stream ∧ w.sent = done ++ [(client, message)] ∧
      w.received = done.map (·.2) ∧ Carries w (recordOf message) [] [] [] ∧ Accepted message ∧
      message.length ≤ LONGEST := by
  obtain ⟨done, hfinished, hprogress⟩ := h.progress
  cases hprogress with
  | quiet _ _ _ hcarries => exact absurd hcarries.1 hline
  | asked hcontrol hsent hreceived hcarries =>
      have hlast := h.short _ (hsent ▸ List.mem_append_right _ List.mem_cons_self)
      exact ⟨done, _, _, _, hfinished, hcontrol, hsent, hreceived, hcarries, hlast⟩
  | decoded _ _ _ hcarries => exact absurd hcarries.1 hline
  | answered _ _ _ _ hcarries => exact absurd hcarries.1 hline

theorem doubled_pos {capacity : Nat} (h : Doubled capacity) : 0 < capacity := by
  obtain ⟨k, -, rfl⟩ := h
  exact Nat.two_pow_pos k

theorem Inv.line (h : Inv serve server clients w) {reads rest : List ReadByte} {record : Bytes}
    {next : Nat} (hreads : arrived reads = w.toGuest)
    (hread : readRecord reads [] w.capacity = some (record, next, rest)) :
    Inv serve server clients { w with
      toGuest := arrived rest
      capacity := next
      input := w.input ++ linePayload record } := by
  have hline : w.toGuest ≠ [] := by
    obtain ⟨start, -, -, harrived⟩ := arrived_readRecord hread
    rw [← hreads, harrived]
    exact List.append_ne_nil_of_right_ne_nil _ (List.cons_ne_nil _ _)
  obtain ⟨done, client, stream, message, hfinished, hcontrol, hsent, hreceived, hcarries, hm, hshort⟩ :=
    h.asked hline
  rw [hcarries.1] at hreads
  obtain ⟨rfl, hrest⟩ := readRecord_record hreads hread
  have hnext : Doubled next := by
    rw [← List.append_nil (recordOf message)] at hreads
    obtain ⟨_, _, hagain, hdoubled⟩ := exists_readRecord (linesFrom_record hreads)
      ((length_recordLine_lt_iff message).mpr hshort) h.capacity
    obtain ⟨-, htail⟩ := Prod.mk.inj (Option.some.inj (hread.symm.trans hagain))
    exact (Prod.mk.inj htail).1 ▸ hdoubled
  refine ⟨h.decoding, hnext, h.guest, h.process, h.short, h.served, done, hfinished,
    .decoded hcontrol hsent hreceived ⟨hrest, ?_, hcarries.3, hcarries.4⟩⟩
  rw [hcarries.2, linePayload_recordLine hm.ne_nil]
  rfl

theorem Inv.answer (h : Inv serve server clients w) {message rest : Bytes}
    (hread : takeMessage w.input = some (message, rest)) :
    Inv serve server clients { w with
      input := rest
      server := (serve w.server message).2
      output := w.output ++ (serve w.server message).1.1
      received := w.received ++ [message] } := by
  obtain ⟨hm, hinput⟩ := takeMessage_eq_some.mp hread
  have hne : w.input ≠ [] := hinput ▸ List.append_ne_nil_of_left_ne_nil hm.ne_nil _
  obtain ⟨done, hfinished, hprogress⟩ := h.progress
  cases hprogress with
  | quiet _ _ _ hcarries => exact absurd hcarries.2 hne
  | asked _ _ _ hcarries => exact absurd hcarries.2 hne
  | answered _ _ _ _ hcarries => exact absurd hcarries.2 hne
  | decoded hcontrol hsent hreceived hcarries =>
      rename_i client stream request
      have hlast := (h.short _ (hsent ▸ List.mem_append_right _ List.mem_cons_self)).1
      have hwhole : takeMessage w.input = some (request, []) :=
        takeMessage_eq_some.mpr ⟨hlast, by rw [hcarries.2, List.append_nil]⟩
      obtain ⟨rfl, rfl⟩ := Prod.mk.inj (Option.some.inj (hread.symm.trans hwhole))
      have hprocess : w.server = after serve server (done.map (·.2)) := hreceived ▸ h.process
      refine ⟨h.decoding, h.capacity, h.guest, ?_, h.short, h.served, done, hfinished,
        .answered [] hcontrol hsent ?_ ⟨hcarries.1, rfl, rfl, hcarries.4⟩
          (fun _ hf => nomatch hf) ?_⟩
      · rw [after_append, ← h.process]
      · rw [hreceived, List.map_append]
        rfl
      · rw [hcarries.3, hprocess]
        rfl

/-- Nothing else is on the way when a message is answered. -/
theorem Inv.rest_of_answer (h : Inv serve server clients w) {message rest : Bytes}
    (hread : takeMessage w.input = some (message, rest)) : rest = [] ∧ w.output = [] := by
  obtain ⟨hm, hinput⟩ := takeMessage_eq_some.mp hread
  have hne : w.input ≠ [] := hinput ▸ List.append_ne_nil_of_left_ne_nil hm.ne_nil _
  obtain ⟨done, -, hprogress⟩ := h.progress
  cases hprogress with
  | quiet _ _ _ hcarries => exact absurd hcarries.2 hne
  | asked _ _ _ hcarries => exact absurd hcarries.2 hne
  | answered _ _ _ _ hcarries => exact absurd hcarries.2 hne
  | decoded hcontrol hsent hreceived hcarries =>
      rename_i client stream request
      have hlast := (h.short _ (hsent ▸ List.mem_append_right _ List.mem_cons_self)).1
      have hwhole : takeMessage w.input = some (request, []) :=
        takeMessage_eq_some.mpr ⟨hlast, by rw [hcarries.2, List.append_nil]⟩
      exact ⟨(Prod.mk.inj (Option.some.inj (hread.symm.trans hwhole))).2, hcarries.3⟩

theorem records_append (fragments : List Bytes) (fragment : Bytes) :
    records (fragments ++ [fragment]) = records fragments ++ recordOf fragment := by
  rw [records, List.flatMap_append, List.flatMap_singleton]
  rfl

theorem Inv.encode (h : Inv serve server clients w) {fragment rest : Bytes}
    (houtput : w.output = fragment ++ rest) (hne : fragment ≠ []) :
    Inv serve server clients { w with
      output := rest
      toRelay := w.toRelay ++ recordOf fragment } := by
  have hsome : w.output ≠ [] := houtput ▸ List.append_ne_nil_of_left_ne_nil hne _
  obtain ⟨done, hfinished, hprogress⟩ := h.progress
  cases hprogress with
  | quiet _ _ _ hcarries => exact absurd hcarries.3 hsome
  | asked _ _ _ hcarries => exact absurd hcarries.3 hsome
  | decoded _ _ _ hcarries => exact absurd hcarries.3 hsome
  | answered fragments hcontrol hsent hreceived hcarries hfragments hreply =>
      refine ⟨h.decoding, h.capacity, h.guest, h.process, h.short, h.served, done, hfinished,
        .answered (fragments ++ [fragment]) hcontrol hsent hreceived
          ⟨hcarries.1, hcarries.2, rfl, ?_⟩ ?_ ?_⟩
      · rw [records_append, hcarries.4]
      · intro other hother
        rcases List.mem_append.mp hother with hother | hother
        · exact hfragments other hother
        · rw [List.mem_singleton.mp hother]
          exact hne
      · rw [List.flatten_append, List.flatten_singleton, List.append_assoc, ← houtput, hcarries.3]
        exact hreply

/-! ### The response -/

/-- A message that begins with a message is that message. -/
theorem Accepted.eq_nil {message more : Bytes} (h : Accepted message)
    (hmore : Accepted (message ++ more)) : more = [] := by
  have hleast := h.least
  have hsize := hmore.size
  rw [List.take_append_of_le_length (by omega), h.size, List.length_append] at hsize
  exact List.eq_nil_of_length_eq_zero (by omega)

theorem holds_records {channel : List Fragment} (fragments : List Bytes)
    (hfragments : ∀ fragment ∈ fragments, fragment ≠ [])
    (hchannel : text channel = records fragments) :
    Holds (⟨[], []⟩, channel) fragments.flatten :=
  ⟨fragments, hfragments, hchannel, rfl⟩

/-- A stream that holds no bytes is empty. -/
theorem eq_nil_of_holds {guest : ArmoredStream} {channel : List Fragment}
    (h : Holds (guest, channel) []) : guest = ⟨[], []⟩ ∧ text channel = [] := by
  obtain ⟨fragments, hfragments, hwire, hbytes⟩ := h
  obtain ⟨hdecoded, hflatten⟩ := List.append_eq_nil_iff.mp hbytes
  have hnone : fragments = [] := by
    rw [List.flatten_eq_nil_iff] at hflatten
    exact List.eq_nil_iff_forall_not_mem.mpr fun fragment hf => hfragments _ hf (hflatten _ hf)
  subst hnone
  obtain ⟨hnil, htext⟩ := List.append_eq_nil_iff.mp (show guest.wire ++ text channel = [] from hwire)
  obtain ⟨decoded, wire⟩ := guest
  subst hdecoded hnil
  exact ⟨rfl, htext⟩

/-- What the host can read of a response. -/
theorem Inv.reply (h : Inv serve server clients w) {client : Nat} {stream channel : List Fragment}
    (hcontrol : w.control = .awaiting client stream) (hchannel : text channel = w.toRelay) :
    ∃ done message part missing,
      w.finished.map (fun e => (e.client, e.response)) = exchanges serve server done ∧
      w.sent = done ++ [(client, message)] ∧ Holds (⟨[], []⟩, channel) part ∧
      part ++ missing = (serve (after serve server (done.map (·.2))) message).1.1 ∧
      (missing = [] → w.received = w.sent.map (·.2) ∧ Carries w [] [] [] w.toRelay) := by
  obtain ⟨done, hfinished, hprogress⟩ := h.progress
  have hnothing : w.toRelay = [] → Holds (⟨[], []⟩, channel) [] := fun hnil =>
    holds_records [] (fun _ hf => nomatch hf) (hchannel.trans hnil)
  cases hprogress with
  | quiet hquiet => exact absurd hcontrol (hquiet _ _)
  | asked hawaiting hsent hreceived hcarries =>
      rename_i client' stream' message
      obtain ⟨rfl, -⟩ := Control.awaiting.inj (hcontrol.symm.trans hawaiting)
      refine ⟨done, message, [], _, hfinished, hsent, hnothing hcarries.4, rfl, fun hnil => ?_⟩
      exact absurd hnil (Accepted.ne_nil (serve _ message).1.2)
  | decoded hawaiting hsent hreceived hcarries =>
      rename_i client' stream' message
      obtain ⟨rfl, -⟩ := Control.awaiting.inj (hcontrol.symm.trans hawaiting)
      refine ⟨done, message, [], _, hfinished, hsent, hnothing hcarries.4, rfl, fun hnil => ?_⟩
      exact absurd hnil (Accepted.ne_nil (serve _ message).1.2)
  | answered fragments hawaiting hsent hreceived hcarries hfragments hreply =>
      rename_i client' stream' message output
      obtain ⟨rfl, -⟩ := Control.awaiting.inj (hcontrol.symm.trans hawaiting)
      refine ⟨done, message, fragments.flatten, output, hfinished, hsent,
        holds_records fragments hfragments (hchannel.trans hcarries.4), hreply, ?_⟩
      rintro rfl
      exact ⟨hsent ▸ hreceived, hcarries.1, hcarries.2, hcarries.3, rfl⟩

/-- What is read is the whole reply. -/
theorem Inv.respond (h : Inv serve server clients w) {client : Nat}
    {stream channel rest : List Fragment} {response : Bytes} {guest : ArmoredStream}
    (delivery : Delivery) (hcontrol : w.control = .awaiting client stream)
    (hchannel : text channel = w.toRelay)
    (hread : w.guest.readMessage channel = .ok (response, guest, rest)) :
    Inv serve server clients { w with
      control := delivery.control client stream
      guest
      toRelay := text rest
      finished := w.finished ++ [⟨client, response, delivery⟩] } := by
  obtain ⟨done, message, part, missing, hfinished, hsent, hholds, hreply, hwhole⟩ :=
    h.reply hcontrol hchannel
  rw [h.guest] at hread
  obtain ⟨later, hm, rfl, hlater⟩ := ArmoredStream.reads_readExact.message_ok hholds hread
  have haccepted := (serve (after serve server (done.map (·.2))) message).1.2
  rw [← hreply, List.append_assoc] at haccepted
  obtain ⟨rfl, rfl⟩ := List.append_eq_nil_iff.mp (hm.eq_nil haccepted)
  rw [List.append_nil, List.append_nil] at hreply
  obtain ⟨hreceived, hcarries⟩ := hwhole rfl
  obtain ⟨hguest, hrest⟩ := eq_nil_of_holds hlater
  have hnext : ∀ other current, delivery.control client stream ≠ .awaiting other current := by
    cases delivery <;> exact fun _ _ heq => nomatch heq
  refine ⟨h.decoding, h.capacity, hguest, h.process, h.short, ?_, w.sent, ?_,
    .quiet hnext rfl hreceived ⟨hcarries.1, hcarries.2, hcarries.3, hrest⟩⟩
  · have hserved := hcontrol ▸ h.served
    cases delivery with
    | delivered => exact hserved.resume
    | brokenPipe => exact hserved.leave (.inl rfl)
    | failed => exact hserved.leave (.inr rfl)
  · rw [hsent, exchanges_append, List.map_append, hfinished, hreply]
    rfl

/-- No response is garbled. -/
theorem Inv.not_garbled (h : Inv serve server clients w) {client : Nat}
    {stream channel : List Fragment} {e : Failure} (hcontrol : w.control = .awaiting client stream)
    (hchannel : text channel = w.toRelay) (hread : w.guest.readMessage channel = .error e) :
    e = .eof := by
  obtain ⟨done, message, part, missing, -, -, hholds, hreply, -⟩ := h.reply hcontrol hchannel
  rw [h.guest] at hread
  have haccepted := (serve (after serve server (done.map (·.2))) message).1.2
  rw [← hreply] at haccepted
  cases missing with
  | nil =>
      rw [List.append_nil] at haccepted
      obtain ⟨_, hok, -⟩ := ArmoredStream.reads_readExact.message haccepted
        (show Holds (⟨[], []⟩, channel) (part ++ []) by rwa [List.append_nil])
      cases hread.symm.trans hok
  | cons b missing =>
      have heof := ArmoredStream.reads_readExact.message_part haccepted (List.cons_ne_nil b missing) hholds
      exact Except.error.inj (hread.symm.trans heof)

/-- No line is too long. -/
theorem Inv.not_overflow (h : Inv serve server clients w) {reads : List ReadByte}
    (hreads : arrived reads = w.toGuest) (hline : w.toGuest ≠ []) :
    ∃ line next rest, readRecord reads [] w.capacity = some (line, next, rest) := by
  obtain ⟨done, client, stream, message, -, -, -, -, hcarries, -, hshort⟩ := h.asked hline
  rw [hcarries.1, ← List.append_nil (recordOf message)] at hreads
  obtain ⟨next, rest, hread⟩ := (readRecord_iff h.capacity (doubled_pos h.capacity) hreads).mpr hshort
  exact ⟨_, next, rest, hread⟩

/-- Every step keeps the invariant. -/
theorem Inv.step (h : Inv serve server clients w) (hshort : Short clients) {next : World σ}
    (hstep : Step serve w next) : Inv serve server clients next := by
  cases hstep with
  | accept hcontrol hwaiting => exact h.accept hcontrol hwaiting
  | request hcontrol hread => exact h.request hshort hcontrol hread
  | hangUp hcontrol => exact h.leave (fun _ _ heq => nomatch hcontrol.symm.trans heq) (.inl rfl)
  | refuse hcontrol => exact h.leave (fun _ _ heq => nomatch hcontrol.symm.trans heq) (.inr rfl)
  | reset hcontrol => exact h.leave (fun _ _ heq => nomatch hcontrol.symm.trans heq) (.inr rfl)
  | line _ hreads _ hread => exact h.line hreads hread
  | overflow _ hreads _ hline hread =>
      obtain ⟨_, _, _, hsome⟩ := h.not_overflow hreads (List.ne_nil_of_mem hline)
      cases hread.symm.trans hsome
  | answer hread => exact h.answer hread
  | encode houtput hne => exact h.encode houtput hne
  | respond delivery hcontrol hchannel hread => exact h.respond delivery hcontrol hchannel hread
  | garbled hcontrol hchannel hread he => exact absurd (h.not_garbled hcontrol hchannel hread) he

/-- Every state that is reached meets the invariant. -/
theorem inv_of_reachable (hshort : Short clients)
    (hreach : Relation.ReflTransGen (Step serve) (.init server clients) w) :
    Inv serve server clients w := by
  induction hreach with
  | refl => exact inv_init serve server clients
  | tail _ hstep ih => exact ih.step hshort hstep

theorem Inv.agrees (h : Inv serve server clients w) : Agrees serve server clients w := by
  obtain ⟨done, hfinished, hprogress⟩ := h.progress
  have hlength := congrArg List.length hfinished
  rw [List.length_map, length_exchanges] at hlength
  have hsent : ∃ last, w.sent = done ++ last ∧ last.length ≤ 1 := by
    cases hprogress with
    | quiet _ hsent => exact ⟨[], by rw [hsent, List.append_nil], Nat.zero_le _⟩
    | asked _ hsent => exact ⟨_, hsent, Nat.le_refl _⟩
    | decoded _ hsent => exact ⟨_, hsent, Nat.le_refl _⟩
    | answered _ _ hsent => exact ⟨_, hsent, Nat.le_refl _⟩
  obtain ⟨last, hlast, hone⟩ := hsent
  refine ⟨h.served.prefixes, h.decoding, ?_, ?_, ?_⟩
  · rw [hlast, List.map_append]
    cases hprogress with
    | quiet _ _ hreceived => exact hreceived ▸ List.prefix_append _ _
    | asked _ _ hreceived => exact hreceived ▸ List.prefix_append _ _
    | decoded _ _ hreceived => exact hreceived ▸ List.prefix_append _ _
    | answered _ _ hsent hreceived =>
        rw [hreceived, ← hsent, hlast, List.map_append]
  · rw [hfinished, hlast, exchanges, exchanges, List.map_append, List.map_append, replies_append,
      List.zip_append (by rw [List.length_map, length_replies, List.length_map])]
    exact List.prefix_append _ _
  · rw [hlast, List.length_append, hlength]
    omega

/-! ## Runs -/

theorem arrived_map_byte {bytes : Bytes} (h : RETURN ∉ bytes) :
    arrived (bytes.map ReadByte.byte) = bytes := by
  induction bytes with
  | nil => rfl
  | cons b bytes ih =>
      rw [List.mem_cons, not_or] at h
      rw [List.map_cons, arrived, if_neg (Ne.symm h.1), ih h.2]

theorem return_notMem_recordOf (message : Bytes) : RETURN ∉ recordOf message := by
  intro h
  rcases List.mem_append.mp h with h | h
  · exact return_notMem_recordLine message h
  · revert h
    decide

/-- A channel with any bytes. -/
theorem exists_text (bytes : Bytes) : ∃ channel, text channel = bytes := by
  by_cases h : bytes = []
  · exact ⟨[], h.symm⟩
  · exact ⟨[⟨bytes, h⟩], List.append_nil _⟩

/-- Where no party can go on, the run is complete. -/
theorem Inv.completed (h : Inv serve server clients w) (hstuck : ∀ next, ¬Step serve w next) :
    Completed w := by
  obtain ⟨done, hfinished, hprogress⟩ := h.progress
  cases hprogress with
  | quiet hcontrol hsent hreceived hcarries =>
      have hlength := congrArg List.length hfinished
      rw [List.length_map, length_exchanges] at hlength
      refine ⟨hsent ▸ hreceived, hsent ▸ hlength, ?_⟩
      cases hstate : w.control with
      | accepting =>
          rcases hwaiting : w.waiting with _ | ⟨stream, waiting⟩
          · exact .inr ⟨rfl, rfl⟩
          · exact absurd (Step.accept hstate hwaiting) (hstuck _)
      | serving client stream => exact absurd (Step.reset hstate) (hstuck _)
      | awaiting client stream => exact absurd hstate (hcontrol client stream)
      | raised => exact .inl rfl
  | asked hcontrol hsent hreceived hcarries =>
      rename_i client stream message
      have hreads := arrived_map_byte (return_notMem_recordOf message)
      rw [← hcarries.1] at hreads
      have hline : w.toGuest ≠ [] := by
        rw [hcarries.1, recordOf]
        exact List.append_ne_nil_of_right_ne_nil _ (List.cons_ne_nil _ _)
      obtain ⟨line, next, rest, hread⟩ := h.not_overflow hreads hline
      exact absurd (Step.line h.decoding hreads (by simp) hread) (hstuck _)
  | decoded hcontrol hsent hreceived hcarries =>
      rename_i client stream message
      have hlast := (h.short _ (hsent ▸ List.mem_append_right _ List.mem_cons_self)).1
      have hread : takeMessage w.input = some (message, []) :=
        takeMessage_eq_some.mpr ⟨hlast, by rw [hcarries.2, List.append_nil]⟩
      exact absurd (Step.answer hread) (hstuck _)
  | answered fragments hcontrol hsent hreceived hcarries hfragments hreply =>
      rename_i client stream message output
      by_cases houtput : output = []
      · -- the last record is there
        subst houtput
        obtain ⟨channel, hchannel⟩ := exists_text w.toRelay
        have hholds := holds_records fragments hfragments (hchannel.trans hcarries.4)
        have haccepted := (serve (after serve server (done.map (·.2))) message).1.2
        rw [← hreply, List.append_nil] at haccepted
        rw [← List.append_nil fragments.flatten] at hholds
        obtain ⟨⟨guest, rest⟩, hread, -⟩ := ArmoredStream.reads_readExact.message haccepted hholds
        rw [← h.guest] at hread
        exact absurd (Step.respond .delivered hcontrol hchannel hread) (hstuck _)
      · have hencode : w.output = output.take 4096 ++ output.drop 4096 := by
          rw [hcarries.3, List.take_append_drop]
        exact absurd (Step.encode hencode (by simpa using houtput) (List.length_take_le _ _))
          (hstuck _)

/-- What is still to be done for a request: fewer steps than a message has bytes lie before each
next one of its exchange. -/
def Control.work : Control → Nat
  | .accepting => 0
  | .serving _ stream => (text stream).length * 2 ^ 26 + 1
  | .awaiting _ stream => (text stream).length * 2 ^ 26 + 2
  | .raised => 0

/-- What is still to be done in a state. Each step does some of it. -/
def World.work (w : World σ) : Nat :=
  (w.waiting.map fun stream => ((text stream).length + 1) * 2 ^ 26).sum + w.control.work +
    (if w.toGuest = [] then 0 else MAX_MESSAGE + 2) + (if w.input = [] then 0 else MAX_MESSAGE + 1) +
    w.output.length

theorem Control.work_accept (client : Nat) (stream : List Fragment) :
    (Control.serving client stream).work < ((text stream).length + 1) * 2 ^ 26 := by
  rw [Control.work, Nat.add_mul]
  omega

theorem Control.work_request (client : Nat) {stream rest : List Fragment} {message : Bytes}
    (h : readMessage stream = .ok (message, rest)) :
    (Control.awaiting client rest).work + (MAX_MESSAGE + 2) < (Control.serving client stream).work := by
  obtain ⟨hm, htext⟩ := readMessage_ok h
  have hleast := hm.least
  rw [Control.work, Control.work, htext, List.length_append, MAX_MESSAGE]
  omega

theorem Delivery.work_control (delivery : Delivery) (client : Nat) (stream : List Fragment) :
    (delivery.control client stream).work < (Control.awaiting client stream).work := by
  cases delivery <;> simp only [Delivery.control, Control.work] <;> omega

/-- Each step does some of the work. -/
theorem Inv.work_lt (h : Inv serve server clients w) {next : World σ} (hstep : Step serve w next) :
    next.work < w.work := by
  cases hstep with
  | accept hcontrol hwaiting =>
      rename_i stream waiting
      have hwork := Control.work_accept w.accepted stream
      simp only [World.work, hcontrol, hwaiting, List.map_cons, List.sum_cons,
        show Control.accepting.work = 0 from rfl]
      omega
  | request hcontrol hread =>
      rename_i client stream rest message
      have hwork := Control.work_request client hread
      obtain ⟨-, -, hcarries⟩ := h.quiet fun _ _ heq => nomatch hcontrol.symm.trans heq
      simp only [World.work, hcontrol, hcarries.1, hcarries.2, hcarries.3, if_true]
      split <;> omega
  | hangUp hcontrol =>
      simp only [World.work, hcontrol, Control.work]
      omega
  | refuse hcontrol =>
      simp only [World.work, hcontrol, Control.work]
      omega
  | reset hcontrol =>
      simp only [World.work, hcontrol, Control.work]
      omega
  | line _ hreads _ hread =>
      have hline : w.toGuest ≠ [] := by
        obtain ⟨start, -, -, harrived⟩ := arrived_readRecord hread
        rw [← hreads, harrived]
        exact List.append_ne_nil_of_right_ne_nil _ (List.cons_ne_nil _ _)
      obtain ⟨_, _, _, _, -, -, -, -, hcarries, -, -⟩ := h.asked hline
      rw [hcarries.1] at hreads
      obtain ⟨-, hrest⟩ := readRecord_record hreads hread
      simp only [World.work, hrest, hcarries.2, if_neg hline, if_true]
      split <;> omega
  | overflow _ hreads _ hline hread =>
      obtain ⟨_, _, _, hsome⟩ := h.not_overflow hreads (List.ne_nil_of_mem hline)
      cases hread.symm.trans hsome
  | answer hread =>
      rename_i message rest
      obtain ⟨hm, hinput⟩ := takeMessage_eq_some.mp hread
      have hne : w.input ≠ [] := hinput ▸ List.append_ne_nil_of_left_ne_nil hm.ne_nil _
      obtain ⟨hrest, houtput⟩ := h.rest_of_answer hread
      have hmost := (serve w.server message).1.2.most
      simp only [World.work, hrest, houtput, if_neg hne, if_true, List.nil_append, List.length_nil]
      omega
  | encode houtput hne =>
      have hpos := List.length_pos_of_ne_nil hne
      simp only [World.work, houtput, List.length_append]
      omega
  | respond delivery hcontrol hchannel hread =>
      rename_i client stream channel rest response guest
      have hwork := delivery.work_control client stream
      simp only [World.work, hcontrol]
      omega
  | garbled hcontrol hchannel hread he => exact absurd (h.not_garbled hcontrol hchannel hread) he

/-- No run goes on for ever. -/
theorem no_endless_run (server : σ) (hshort : Short clients) :
    ¬∃ run : Nat → World σ, run 0 = .init server clients ∧
      ∀ i, Step serve (run i) (run (i + 1)) := by
  rintro ⟨run, hzero, hsteps⟩
  have hinv : ∀ i, Inv serve server clients (run i) := by
    intro i
    induction i with
    | zero => exact hzero ▸ inv_init serve server clients
    | succ i ih => exact ih.step hshort (hsteps i)
  have hwork : ∀ i, (run i).work + i ≤ (run 0).work := by
    intro i
    induction i with
    | zero => exact Nat.le_refl _
    | succ i ih =>
        have hlt := (hinv i).work_lt (hsteps i)
        omega
  have hlast := hwork ((run 0).work + 1)
  omega

/-- **The two ends of the relay agree** as long as no request is longer than `LONGEST`: in every run,
with any clients, fragments, delays and disconnections, each request reaches the process unchanged
and in order, and each reply the client that asked, or no client. The bound is where `read_record`
stops accepting records. -/
theorem relays_of_short {σ : Type} :
    (∀ (serve : σ → Bytes → Message × σ) (server : σ) (clients : List (List Fragment)),
      Short clients → Relays serve server clients) ∧
    ∀ (message : Bytes) (reads : List ReadByte) (later : Bytes) (capacity : Nat),
      Doubled capacity → arrived reads = recordOf message ++ later →
      ((∃ next rest, readRecord reads [] capacity = some (recordLine message, next, rest)) ↔
        message.length ≤ LONGEST) := by
  refine ⟨fun serve server clients hshort => ⟨fun w hreach => ?_, no_endless_run server hshort⟩,
    fun message reads later capacity hcapacity h => readRecord_iff hcapacity (doubled_pos hcapacity) h⟩
  have hinv := inv_of_reachable hshort hreach
  exact ⟨hinv.agrees, hinv.completed⟩

end

/-- The shortest message, which names no more than its size. -/
def shortest : Message := ⟨[7, 0, 0, 0, 0, 0, 0], by decide⟩

/-- A process that answers with the shortest message. -/
def terse (_ : Unit) (_ : Bytes) : Message × Unit := (shortest, ())

theorem shortest_relayed :
    Relays terse () [[⟨shortest.1, by decide⟩], [⟨[7, 0, 0], by decide⟩]] := by
  refine relays_of_short.1 terse () _ fun stream hstream message hmem => ?_
  have hlength := (accepted_of_mem_messages hmem).2
  have htext : (text stream).length ≤ 7 := by
    rcases List.mem_cons.mp hstream with rfl | hstream
    · decide
    · rw [List.mem_singleton.mp hstream]
      decide
  exact hlength.trans (htext.trans (by decide))

/-- A message that is longer by one byte than the longest one. -/
def long : Bytes := [0xfe, 0xff, 0xbf, 0x00] ++ List.replicate 12582906 0

theorem length_long : long.length = LONGEST + 1 := by
  rw [long, List.length_append, List.length_replicate]
  rfl

theorem accepted_long : Accepted long where
  size := by
    rw [length_long]
    exact (by decide : Bytes.le [0xfe, 0xff, 0xbf, 0x00] = LONGEST + 1)
  least := by
    rw [length_long]
    decide
  most := by
    rw [length_long]
    decide

/-- A request that is longer ends the decoder. -/
theorem not_relays_of_long {σ : Type} (serve : σ → Bytes → Message × σ) (server : σ) {message : Bytes}
    (hm : Accepted message) (hlong : LONGEST < message.length) :
    ¬Relays serve server [[⟨message, hm.ne_nil⟩]] := by
  intro h
  have hrecord : arrived ((recordOf message).map ReadByte.byte) = recordOf message :=
    arrived_map_byte (return_notMem_recordOf message)
  have hline : NEWLINE ∈ recordOf message := List.mem_append_right _ (List.mem_singleton_self _)
  have hnone : readRecord ((recordOf message).map ReadByte.byte) [] 4096 = none := by
    rcases hread : readRecord ((recordOf message).map ReadByte.byte) [] 4096 with _ | ⟨line, next, rest⟩
    · rfl
    · obtain ⟨rfl, -⟩ := readRecord_record hrecord hread
      have hshort := (readRecord_iff ⟨12, by decide, rfl⟩ (by decide)
        (hrecord.trans (List.append_nil _).symm)).mp ⟨next, rest, hread⟩
      exact absurd hshort (Nat.not_le.mpr hlong)
  obtain ⟨rest, hread, -⟩ : ∃ rest, readMessage [⟨message, hm.ne_nil⟩] = .ok (message, rest) ∧
      text rest = [] := readMessage_of_text hm rfl
  -- the client is accepted, its request sent, and its record refused
  obtain ⟨first, haccept, hcontrol, hidle, hcapacity, hdecoding⟩ :
      ∃ first, Step serve (.init server [[⟨message, hm.ne_nil⟩]]) first ∧
        first.control = .serving 0 [⟨message, hm.ne_nil⟩] ∧ first.toGuest = [] ∧
        first.capacity = 4096 ∧ first.decoding = true :=
    ⟨_, .accept rfl rfl, rfl, rfl, rfl, rfl⟩
  obtain ⟨second, hrequest, hsent, hsame, hgoes⟩ :
      ∃ second, Step serve first second ∧ second.toGuest = recordOf message ∧
        second.capacity = 4096 ∧ second.decoding = true :=
    ⟨_, .request hcontrol hread, by rw [hidle]; rfl, hcapacity, hdecoding⟩
  obtain ⟨third, hoverflow, hended⟩ : ∃ third, Step serve second third ∧ third.decoding = false :=
    ⟨_, .overflow hgoes (hrecord.trans hsent.symm) (by simp) (hsent ▸ hline) (hsame ▸ hnone), rfl⟩
  have hlast := (h.1 third (((Relation.ReflTransGen.single haccept).tail hrequest).tail hoverflow)).1
  exact nomatch hended.symm.trans hlast.decoding

/-- **A longer request is lost**: `read_message` accepts it, `read_record` fails on its record, and
the host waits for a response that nobody will send. -/
theorem long_request_lost :
    Accepted long ∧ ¬Relays terse () [[⟨long, accepted_long.ne_nil⟩]] :=
  ⟨accepted_long, not_relays_of_long terse () accepted_long
    (by rw [length_long]; exact Nat.lt_succ_self _)⟩

end Mountin.Relay
