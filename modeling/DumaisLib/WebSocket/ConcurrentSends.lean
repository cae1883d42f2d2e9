import DumaisLib.Utils.RetryInterleaving
import DumaisLib.WebSocket.SendStream
import DumaisLib.WebSocket.SentFrames

/-!
# Threads that send on one connection

Any number of threads send messages on a connected WebSocket, one atomic read or write
of `put` at a time, while the reactor takes buffers off the queue and hands their
bytes to the socket.  A refused put gives the connection up, so the runs end there.
-/

set_option linter.dupNamespace false

namespace DumaisLib.WebSocket

open Machine Rfc6455 DumaisLib.Utils DumaisLib.Utils.Interleaving

/-- The queue with its threads, the buffer that is being sent, and what has been sent. -/
structure Senders (P : Type) where
  queue : Retrying P SendBuffer TX_LIST_SIZE
  currentSendBuffer : Option SendBuffer
  sent : List Byte

namespace Senders

variable {P : Type}

/-- The buffer that `sendText` and `sendBinary` queue for a message. -/
def bufferOf (message : Message) : SendBuffer :=
  .ofBytes message.serverFrame.encode

inductive Act (P : Type) where
  | sendData (p : P) (message : Message)
  | produce (p : P)
  | get
  | onDataSent (count : Nat)

/-- What is left of the current buffer. -/
def rest (senders : Senders P) : List Byte :=
  (senders.currentSendBuffer.map SendBuffer.cursor.rest).getD []

variable [DecidableEq P]

/-- `getTxData` only asks the queue when there is no current buffer. -/
def step (senders : Senders P) : Act P → Option (Senders P)
  | .sendData p message =>
      (senders.queue.step (.call p (bufferOf message))).map fun queue =>
        { senders with queue := queue }
  | .produce p =>
      (senders.queue.step (.produce p)).map fun queue =>
        { senders with queue := queue }
  | .get =>
      if senders.currentSendBuffer = none then
        some { senders with
          queue := senders.queue.consume
          currentSendBuffer := match senders.queue.consumer with
            | .advancing item => some item
            | _ => none }
      else none
  | .onDataSent count =>
      senders.currentSendBuffer.bind fun current =>
        if 1 ≤ count ∧ count ≤ (SendBuffer.cursor.rest current).length then
          some { senders with
            currentSendBuffer := SendBuffer.cursor.advance current count
            sent := senders.sent ++ (SendBuffer.cursor.rest current).take count }
        else none

/--
At most 999 messages have begun and have not been taken off the queue, and the queue
has refused none.
-/
def Bounded (senders : Senders P) (act : Act P) : Prop :=
  ∀ next, senders.step act = some next → next.queue.pending ≤ TX_LIST_SIZE - 1 ∧
    ∀ result ∈ next.queue.putResults, result.2 = true

def start (P : Type) (fresh : Fin TX_LIST_SIZE → SendBuffer) : Senders P where
  queue := .init P fresh
  currentSendBuffer := none
  sent := []

/-- The states of the runs in which the queue takes every message. -/
def Reached (fresh : Fin TX_LIST_SIZE → SendBuffer) : Senders P → Prop :=
  Reaches step Bounded (start P fresh)

/--
What has been sent and what is left of the current buffer are the buffers that
were taken off the queue.
-/
structure Inv (fresh : Fin TX_LIST_SIZE → SendBuffer) (senders : Senders P) : Prop where
  reachable : senders.queue.Reachable fresh
  messages : ∀ entry ∈ senders.queue.begun, ∃ message, entry.2 = bufferOf message
  stream : senders.sent ++ senders.rest =
    senders.queue.returned.flatMap SendBuffer.buffer
  unsent : ∀ current, senders.currentSendBuffer = some current → current.Unsent
  between : senders.currentSendBuffer ≠ none → senders.queue.consumer = .idle

variable {fresh : Fin TX_LIST_SIZE → SendBuffer} {senders next : Senders P}

theorem bufferOf_unsent (message : Message) : (bufferOf message).Unsent :=
  SendBuffer.unsent_ofBytes message.encode_bounds.1 message.encode_bounds.2

theorem rest_bufferOf (message : Message) :
    SendBuffer.cursor.rest (bufferOf message) = (bufferOf message).buffer :=
  List.drop_zero

theorem Inv.start (P : Type) [DecidableEq P] (fresh : Fin TX_LIST_SIZE → SendBuffer) :
    Inv fresh (start P fresh) where
  reachable := .init
  messages := List.forall_mem_nil _
  stream := rfl
  unsent := nofun
  between := fun hne => absurd rfl hne

/-- A step of a thread only lengthens the list of what has begun. -/
theorem Inv.of_thread (hinv : senders.Inv fresh) {queue : Retrying P SendBuffer TX_LIST_SIZE}
    (hreachable : queue.Reachable fresh)
    (hbegun : ∀ entry ∈ queue.begun, ∃ message, entry.2 = bufferOf message)
    (hreturned : queue.returned = senders.queue.returned)
    (hconsumer : queue.consumer = senders.queue.consumer) :
    Inv fresh { senders with queue := queue } where
  reachable := hreachable
  messages := hbegun
  stream := by
    rw [hreturned]
    exact hinv.stream
  unsent := hinv.unsent
  between hne := hconsumer.trans (hinv.between hne)

theorem produce_frame {queue queue' : State P SendBuffer TX_LIST_SIZE} {p : P}
    (hstep : Interleaving.produce queue p = some queue') :
    queue'.begun = queue.begun ∧ queue'.returned = queue.returned ∧
      queue'.consumer = queue.consumer := by
  rw [Interleaving.produce] at hstep
  split at hstep
  · cases hstep
  · obtain rfl := Option.some.inj hstep
    exact ⟨rfl, rfl, rfl⟩
  · split at hstep
    · obtain rfl := Option.some.inj hstep
      exact ⟨rfl, rfl, rfl⟩
    · obtain rfl := Option.some.inj hstep
      exact ⟨rfl, rfl, rfl⟩
  · split at hstep
    · obtain rfl := Option.some.inj hstep
      exact ⟨rfl, rfl, rfl⟩
    · obtain rfl := Option.some.inj hstep
      exact ⟨rfl, rfl, rfl⟩
  · split at hstep
    · obtain rfl := Option.some.inj hstep
      exact ⟨rfl, rfl, rfl⟩
    · obtain rfl := Option.some.inj hstep
      exact ⟨rfl, rfl, rfl⟩
  · obtain rfl := Option.some.inj hstep
    exact ⟨rfl, rfl, rfl⟩
  · obtain rfl := Option.some.inj hstep
    exact ⟨rfl, rfl, rfl⟩

theorem retry_frame {queue queue' : Retrying P SendBuffer TX_LIST_SIZE} {p : P}
    (hreachable : queue.Reachable fresh) (hstep : queue.produce p = some queue') :
    queue'.begun = queue.begun ∧ queue'.returned = queue.returned ∧
      queue'.consumer = queue.consumer := by
  rcases Retrying.produce_cases (Interleaving.Inv.of_reachable hreachable.coarser) hstep with
    hcoarse | hsame | ⟨item, oldTail, -, -, -, hrefused⟩
  · exact produce_frame hcoarse
  · rw [hsame]
    exact ⟨rfl, rfl, rfl⟩
  · rw [hrefused]
    exact ⟨rfl, rfl, rfl⟩

/-- A slot is only reserved for a message that a thread sends. -/
theorem reserved_messages {queue : State P SendBuffer TX_LIST_SIZE}
    (hreachable : Interleaving.Reachable fresh queue)
    (hmessages : ∀ entry ∈ queue.begun, ∃ message, entry.2 = bufferOf message) :
    ∀ entry ∈ queue.reserved, ∃ message, entry.2 = bufferOf message := by
  intro entry hentry
  obtain ⟨p, item⟩ := entry
  refine hmessages _ ?_
  have horder := InOwnOrder.of_reachable hreachable p
  have hmem : (p, item) ∈ ofProducer p queue.reserved :=
    List.mem_filter.mpr ⟨hentry, decide_eq_true rfl⟩
  have hbegun : (p, item) ∈ ofProducer p queue.begun := by
    rw [horder]
    exact List.mem_append_left _ hmem
  exact (List.mem_filter.mp hbegun).1

omit [DecidableEq P] in
theorem consume_cases (queue : State P SendBuffer TX_LIST_SIZE) :
    (∃ item, queue.consumer = .advancing item ∧
        (Interleaving.consume queue).returned = queue.returned ++ [item] ∧
        (Interleaving.consume queue).consumer = .idle) ∨
      (∀ item, queue.consumer ≠ .advancing item) ∧
        (Interleaving.consume queue).returned = queue.returned := by
  rw [Interleaving.consume]
  cases hconsumer : queue.consumer with
  | idle =>
      refine Or.inr ⟨by simp, ?_⟩
      dsimp only
      split <;> rfl
  | testing =>
      refine Or.inr ⟨by simp, ?_⟩
      dsimp only
      split <;> rfl
  | reading => exact Or.inr ⟨by simp, rfl⟩
  | clearing item => exact Or.inr ⟨by simp, rfl⟩
  | advancing item => exact Or.inl ⟨item, rfl, rfl, rfl⟩

omit [DecidableEq P] in
theorem consume_begun (queue : State P SendBuffer TX_LIST_SIZE) :
    (Interleaving.consume queue).begun = queue.begun := by
  rw [Interleaving.consume]
  split
  · split <;> rfl
  · split <;> rfl
  · rfl
  · rfl
  · rfl

theorem Inv.get (hinv : senders.Inv fresh) (hnone : senders.currentSendBuffer = none)
    (hpending : senders.queue.consume.pending ≤ TX_LIST_SIZE - 1)
    (hresults : ∀ result ∈ senders.queue.consume.putResults, result.2 = true) :
    Inv fresh { senders with
      queue := senders.queue.consume
      currentSendBuffer := match senders.queue.consumer with
        | .advancing item => some item
        | _ => none } := by
  have hreachable : senders.queue.consume.Reachable fresh :=
    .step .consume hinv.reachable rfl hpending hresults
  have hmessages : ∀ entry ∈ senders.queue.consume.begun,
      ∃ message, entry.2 = bufferOf message := by
    rw [Retrying.consume, consume_begun]
    exact hinv.messages
  have hstream := hinv.stream
  rw [Senders.rest, hnone, Option.map_none, Option.getD_none, List.append_nil] at hstream
  rcases consume_cases senders.queue.toState with ⟨item, hconsumer, hreturned, hidle⟩ |
    ⟨hother, hreturned⟩
  · obtain ⟨more, hmore⟩ := (bounded_runs_deliver_in_order hreachable.coarser).returned_in_order
    have hitem : item ∈ senders.queue.consume.reserved.map Prod.snd := by
      rw [← hmore, Retrying.consume, hreturned]
      exact List.mem_append_left _ (List.mem_append_right _ List.mem_cons_self)
    obtain ⟨entry, hentry, rfl⟩ := List.mem_map.mp hitem
    obtain ⟨message, hmessage⟩ := reserved_messages hreachable.coarser hmessages entry hentry
    exact {
      reachable := hreachable
      messages := hmessages
      stream := by
        simp only [Senders.rest, hconsumer, Option.map_some, Option.getD_some]
        rw [hmessage, rest_bufferOf, Retrying.consume, hreturned, List.flatMap_append,
          List.flatMap_singleton, hstream, hmessage]
      unsent := by
        intro current hcurrent
        simp only [hconsumer] at hcurrent
        obtain rfl := Option.some.inj hcurrent
        rw [hmessage]
        exact bufferOf_unsent message
      between := fun _ => hidle }
  · have hstays : (match senders.queue.consumer with
        | .advancing item => some item
        | _ => none : Option SendBuffer) = none := by
      split
      · exact absurd ‹_› (hother _)
      · rfl
    rw [hstays]
    exact {
      reachable := hreachable
      messages := hmessages
      stream := by
        refine (List.append_nil senders.sent).trans ?_
        rw [hstream, ← hreturned]
        rfl
      unsent := by simp
      between := fun hne => absurd rfl hne }

/-- What goes out is no longer left. -/
theorem Inv.onDataSent (hinv : senders.Inv fresh) {current : SendBuffer}
    (hcurrent : senders.currentSendBuffer = some current) {count : Nat} (hpos : 1 ≤ count)
    (hle : count ≤ (SendBuffer.cursor.rest current).length) :
    Inv fresh { senders with
      currentSendBuffer := SendBuffer.cursor.advance current count
      sent := senders.sent ++ (SendBuffer.cursor.rest current).take count } := by
  have hunsent := hinv.unsent current hcurrent
  have hrest := SendBuffer.cursor_lawful.rest_advance current count hunsent hpos hle
  have hstream := hinv.stream
  rw [Senders.rest, hcurrent, Option.map_some, Option.getD_some] at hstream
  exact {
    reachable := hinv.reachable
    messages := hinv.messages
    stream := by
      rw [Senders.rest, hrest, List.append_assoc, List.take_append_drop]
      exact hstream
    unsent := fun next hnext =>
      (SendBuffer.cursor_lawful.advance_sound current count next hunsent hpos hle hnext).1
    between := fun _ => hinv.between (by rw [hcurrent]; nofun) }

theorem Inv.step {act : Act P} (hinv : senders.Inv fresh) (hbounded : senders.Bounded act)
    (hstep : senders.step act = some next) : next.Inv fresh := by
  obtain ⟨hpending, hresults⟩ := hbounded next hstep
  cases act with
  | sendData p message =>
      obtain ⟨queue, hqueue, rfl⟩ := Option.map_eq_some_iff.mp hstep
      have hreachable : queue.Reachable fresh :=
        .step _ hinv.reachable hqueue hpending hresults
      obtain ⟨called, hcalled, rfl⟩ := Option.map_eq_some_iff.mp hqueue
      rw [Interleaving.step] at hcalled
      split at hcalled
      · obtain rfl := Option.some.inj hcalled
        refine hinv.of_thread hreachable (List.forall_mem_append.mpr ⟨hinv.messages, ?_⟩) rfl rfl
        exact List.forall_mem_singleton.mpr ⟨message, rfl⟩
      · cases hcalled
  | produce p =>
      obtain ⟨queue, hqueue, rfl⟩ := Option.map_eq_some_iff.mp hstep
      obtain ⟨hbegun, hreturned, hconsumer⟩ := retry_frame hinv.reachable hqueue
      refine hinv.of_thread (.step _ hinv.reachable hqueue hpending hresults) ?_ hreturned hconsumer
      rw [hbegun]
      exact hinv.messages
  | get =>
      rw [Senders.step] at hstep
      split at hstep
      · obtain rfl := Option.some.inj hstep
        exact hinv.get ‹_› hpending hresults
      · cases hstep
  | onDataSent count =>
      obtain ⟨current, hcurrent, hsent⟩ := Option.bind_eq_some_iff.mp hstep
      split at hsent
      · rename_i hguard
        obtain rfl := Option.some.inj hsent
        exact hinv.onDataSent hcurrent hguard.1 hguard.2
      · cases hsent

omit [DecidableEq P] in
/-- The buffers of messages, with the messages. -/
theorem messages_of_entries {entries : List (P × SendBuffer)}
    (hentries : ∀ entry ∈ entries, ∃ message, entry.2 = bufferOf message) :
    ∃ messages : List Message, entries.map Prod.snd = messages.map bufferOf := by
  induction entries with
  | nil => exact ⟨[], rfl⟩
  | cons entry entries ih =>
      obtain ⟨⟨message, hmessage⟩, hlater⟩ := List.forall_mem_cons.mp hentries
      obtain ⟨messages, hmessages⟩ := ih hlater
      exact ⟨message :: messages, by rw [List.map_cons, List.map_cons, hmessages, hmessage]⟩

theorem flatMap_bufferOf (messages : List Message) :
    (messages.map bufferOf).flatMap SendBuffer.buffer =
      messages.flatMap fun message => message.serverFrame.encode := by
  rw [List.flatMap_map]
  rfl

/--
The messages of all threads go out whole, in the order in which their slots were
reserved, and those of each thread in the order in which it sent them; when every
thread has finished and nothing is left, all of them have gone out.
-/
theorem sends_whole_messages
    (hreached : Reached fresh senders) :
    ∃ messages : List Message,
      senders.queue.reserved.map Prod.snd = messages.map bufferOf ∧
      frameReader.complete senders.sent <+: messages.map Message.frame ∧
      (∀ p, ofProducer p senders.queue.reserved <+: ofProducer p senders.queue.begun) ∧
      ((∀ p, senders.queue.producer p = .idle) → senders.queue.consumer = .idle →
        senders.currentSendBuffer = none → senders.queue.ring.get.1 = none →
          frameReader.complete senders.sent = messages.map Message.frame ∧
            senders.queue.begun.Perm senders.queue.reserved) := by
  have hinv : senders.Inv fresh :=
    hreached.invariant (Inv.start P fresh) fun _ _ _ hinv hbounded hstep =>
      hinv.step hbounded hstep
  have hdelivers := bounded_runs_deliver_in_order hinv.reachable.coarser
  obtain ⟨messages, hmessages⟩ :=
    messages_of_entries (reserved_messages hinv.reachable.coarser hinv.messages)
  have hreads : ∀ message ∈ messages,
      frameReader.Reads message.serverFrame.encode message.frame :=
    fun message _ => message.decodeFrame_serverFrame
  refine ⟨messages, hmessages, ?_, fun p => ?_, fun hproducers hconsumer hcurrent hempty => ?_⟩
  · have hsent : senders.sent <+: messages.flatMap fun message => message.serverFrame.encode := by
      obtain ⟨more, hmore⟩ := hdelivers.returned_in_order
      rw [← flatMap_bufferOf, ← hmessages, ← hmore, List.flatMap_append, ← hinv.stream,
        List.append_assoc]
      exact List.prefix_append _ _
    obtain ⟨count, -, hcomplete, -⟩ := StreamReader.Reader.complete_beginning hreads hsent
    rw [hcomplete]
    exact (List.take_prefix _ _).map _
  · rw [InOwnOrder.of_reachable hinv.reachable.coarser p]
    exact List.prefix_append _ _
  · obtain ⟨rest, hrest, hring⟩ := hdelivers.rest_held hproducers hconsumer
    have hnone : rest = [] := by
      cases rest with
      | nil => rfl
      | cons item rest =>
          rw [(hring.get_cons).1] at hempty
          cases hempty
    refine ⟨?_, hdelivers.reserved_once fun p => by rw [hproducers p]; rfl⟩
    have hstream := hinv.stream
    rw [Senders.rest, hcurrent, Option.map_none, Option.getD_none, List.append_nil] at hstream
    rw [hnone, List.append_nil, hmessages] at hrest
    rw [hstream, ← hrest, flatMap_bufferOf]
    exact StreamReader.Reader.complete_flatMap hreads

/-- A run that stops where the queue could have no room or has refused a message. -/
def runBounded (senders : Senders P) : List (Act P) → Option (Senders P)
  | [] => some senders
  | act :: acts =>
      (senders.step act).bind fun next =>
        if next.queue.pending ≤ TX_LIST_SIZE - 1 ∧
            ∀ result ∈ next.queue.putResults, result.2 = true then
          next.runBounded acts
        else none

theorem Reached.runBounded {acts : List (Act P)} {last : Senders P}
    (hreached : Reached fresh senders) (hrun : senders.runBounded acts = some last) :
    Reached fresh last := by
  induction acts generalizing senders with
  | nil =>
      obtain rfl := Option.some.inj hrun
      exact hreached
  | cons act acts ih =>
      obtain ⟨next, hnext, hrest⟩ := Option.bind_eq_some_iff.mp hrun
      split at hrest
      · rename_i htaken
        refine ih (Reaches.step hreached (fun other hother => ?_) hnext) hrest
        obtain rfl := Option.some.inj (hnext.symm.trans hother)
        exact htaken
      · cases hrest

/-- Two threads race for a slot, and two bytes of the winner's frame have gone out. -/
def exampleActs : List (Act Bool) :=
  [.sendData false ⟨WS_TEXT, [0x68#8, 0x69#8], by decide⟩, .produce false,
    .sendData true ⟨WS_TEXT, [0x61#8], by decide⟩, .produce true, .produce true, .produce false,
    .produce false, .produce false, .produce false, .produce true, .produce true, .produce true,
    .get, .get, .get, .get, .get, .onDataSent 2]

theorem exampleActs_run :
    ((start Bool fun _ => ⟨[], 0, 0, false⟩).runBounded exampleActs).any (fun senders =>
      senders.sent == [0x81#8, 0x01#8] &&
        senders.queue.reserved.map Prod.fst == [true, false]) = true := by
  decide +kernel

theorem sends_whole_messages_race :
    ∃ senders : Senders Bool, senders.sent = [0x81#8, 0x01#8] ∧
      senders.queue.reserved.map Prod.fst = [true, false] ∧
      ∃ messages : List Message,
        senders.queue.reserved.map Prod.snd = messages.map bufferOf ∧
        frameReader.complete senders.sent <+: messages.map Message.frame ∧
        (∀ p, ofProducer p senders.queue.reserved <+: ofProducer p senders.queue.begun) ∧
        ((∀ p, senders.queue.producer p = .idle) → senders.queue.consumer = .idle →
          senders.currentSendBuffer = none → senders.queue.ring.get.1 = none →
            frameReader.complete senders.sent = messages.map Message.frame ∧
              senders.queue.begun.Perm senders.queue.reserved) := by
  obtain ⟨senders, hrun, hends⟩ := (Option.any_eq_true _ _).mp exampleActs_run
  obtain ⟨hsent, hreserved⟩ := Bool.and_eq_true_iff.mp hends
  have hstart : Reached (fun _ => ⟨[], 0, 0, false⟩) (start Bool _) := Reaches.start
  exact ⟨senders, beq_iff_eq.mp hsent, beq_iff_eq.mp hreserved,
    sends_whole_messages (Reached.runBounded hstart hrun)⟩

end Senders

end DumaisLib.WebSocket
