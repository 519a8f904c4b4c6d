import Manhattan.Library.Streams
import Manhattan.Propagation.Receiving

/-! # Messages of the latency program

`send_message` sends the characters of a string. `receive_message` wants as many bytes as the
buffer has, on a socket that does not wait for them, and `main` prints the buffer as a string.
The two never agree on where a message ends.
-/

namespace Manhattan.Propagation

open Library.CStrings Library.Streams

/-- What `send` is given: `strlen(message)` bytes. -/
def sendMessage (message : CString) : List Byte := message.chars

/-- What the network does at a call of `recv`; a piece that has not arrived is no data. -/
inductive Arrival
  | noData
  | closed
  | piece (size : Nat)

def Arrival.received (arrival : Arrival) (wanted : Nat) (stream : List Byte) : Received :=
  match arrival with
  | .noData => .failed
  | .closed => .closed
  | .piece choice =>
    if h : stream.take (pieceSize choice wanted stream) = [] then .failed
    else .bytes (stream.take (pieceSize choice wanted stream)) h

/-- What the calls of `recv` bring while `wanted` bytes of the stream are missing -/
def fedBy (arrivals : Nat → Arrival) (wanted : Nat) (stream : List Byte) : Nat → Received
  | 0 => (arrivals 0).received wanted stream
  | n + 1 =>
    let size := ((arrivals 0).received wanted stream).data.length
    fedBy (fun i => arrivals (i + 1)) (wanted - size) (stream.drop size) n

/-! ## What a return value of 0 means -/

theorem Arrival.data_received (arrival : Arrival) (wanted : Nat) (stream : List Byte) :
    (arrival.received wanted stream).data <+: stream := by
  cases arrival with
  | noData => exact List.nil_prefix
  | closed => exact List.nil_prefix
  | piece choice =>
    rw [received]
    split
    · exact List.nil_prefix
    · exact List.take_prefix _ _

theorem offered_succ_first (feed : Nat → Received) (n : Nat) :
    offered feed (n + 1) = (feed 0).data ++ offered (fun i => feed (i + 1)) n := by
  rw [offered, List.range_succ_eq_map, List.flatMap_cons, List.flatMap_map]
  rfl

/-- What a stream brings is a beginning of it. -/
theorem offered_fedBy (arrivals : Nat → Arrival) (wanted : Nat) (stream : List Byte) (n : Nat) :
    offered (fedBy arrivals wanted stream) n <+: stream := by
  induction n generalizing arrivals wanted stream with
  | zero => exact List.nil_prefix
  | succ n ih =>
    have hFirst := List.prefix_iff_eq_append.mp ((arrivals 0).data_received wanted stream)
    have hLater := ih (fun i => arrivals (i + 1))
      (wanted - ((arrivals 0).received wanted stream).data.length)
      (stream.drop ((arrivals 0).received wanted stream).data.length)
    rw [offered_succ_first]
    have hBoth := (List.prefix_append_right_inj ((arrivals 0).received wanted stream).data).mpr hLater
    rwa [hFirst] at hBoth

theorem scan_eq_none {bytes : List Byte} (h : 0 ∉ bytes) : scan bytes = none := by
  cases hScan : scan bytes with
  | none => rfl
  | some s =>
    obtain ⟨rest, rfl⟩ := exists_of_scan hScan
    exact absurd (List.mem_append_right _ List.mem_cons_self) h

/-- Whatever arrives, and in whatever pieces: no message is received with the return value 0 and left
in the buffer as a string. -/
theorem receiveMessage_never (message : CString) (node : Node) (select : Select)
    (arrivals : Nat → Arrival) (buffer : Region 1024) :
    ∃ returned t, node.receiveMessage select (fedBy arrivals 1024 (sendMessage message))
        buffer.bytes 1024 = some (returned, t) ∧
      ¬(returned = 0 ∧ scan t.message = some message) := by
  cases select with
  | error => exact ⟨1, _, rfl, fun h => absurd h.1 one_ne_zero⟩
  | timeout => exact ⟨2, _, rfl, fun h => absurd h.1 two_ne_zero⟩
  | readable =>
    obtain ⟨returned, t, n, hCall, -, -, hLeft, -⟩ :=
      @exists_received 1024 0 node (fedBy arrivals 1024 (sendMessage message)) buffer
    refine ⟨returned, t, hCall, ?_⟩
    rintro ⟨hReturned, hString⟩
    -- the buffer is full of bytes of the message, none of which is a NUL
    have hBuffer := hLeft.holds.message
    rw [hLeft.full.mp hReturned, List.drop_of_length_le buffer.length_bytes.le,
      List.append_nil] at hBuffer
    have hNone : scan t.message = none := by
      rw [hBuffer]
      apply scan_eq_none
      intro hNul
      exact message.noNul ((offered_fedBy _ _ _ _).subset (List.mem_of_mem_take hNul))
    rw [hNone] at hString
    cases hString

def wakeUp : CString := .ascii "AM/PM Wake up!"

/-- All 14 bytes of the program's own message arrive at once, and then there is no data. -/
theorem receiveMessage_wakeUp :
    let arrivals : Nat → Arrival := fun i => if i = 0 then .piece 14 else .noData
    let node : Node := ⟨.zeros 16, 0, 0, 1⟩
    (node.receiveMessage .readable (fedBy arrivals 1024 (sendMessage wakeUp))
      (List.replicate 1024 0) 1024).map (fun r => (r.1, r.2.message.take 14)) =
        some (1, wakeUp.chars) := by
  decide +kernel

end Manhattan.Propagation
