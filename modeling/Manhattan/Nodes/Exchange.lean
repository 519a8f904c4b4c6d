import Manhattan.Library.CStrings
import Manhattan.Library.Streams

/-! # The exchange of the node files

`connect_to_server` sends `nodes.db` and then receives the peer's, `the_server` receives first.
A file goes over the connection as its size, the four bytes of an `int`, with the content
behind it. The content is received in a loop, the size by a single `recv`. Everything that can
fail before the first byte is sent has succeeded here, and `send` takes all it is given.
-/

namespace Manhattan.Nodes

open Library.CStrings Library.Streams

/-! ## The size -/

def intBytes (size : Nat) : List Byte :=
  [size, size / 256, size / 256 ^ 2, size / 256 ^ 3].map (BitVec.ofNat 8)

def readInt (bytes : List Byte) : BitVec 32 :=
  BitVec.ofNat 32 (Nat.ofDigits 256 (bytes.map BitVec.toNat))

theorem length_intBytes (size : Nat) : (intBytes size).length = 4 := rfl

theorem ofDigits_intBytes {size : Nat} (h : size < 2 ^ 32) :
    Nat.ofDigits 256 ((intBytes size).map BitVec.toNat) = size := by
  simp only [intBytes, List.map_cons, List.map_nil, BitVec.toNat_ofNat, Nat.ofDigits_cons,
    Nat.ofDigits_nil]
  omega

theorem toNat_readInt {bytes : List Byte} (h : bytes.length = 4) :
    (readInt bytes).toNat = Nat.ofDigits 256 (bytes.map BitVec.toNat) := by
  have hDigits : ∀ d ∈ bytes.map BitVec.toNat, d < 256 := by
    rintro d hd
    obtain ⟨b, _, rfl⟩ := List.mem_map.mp hd
    exact b.isLt
  have hLt := Nat.ofDigits_lt_base_pow_length (by decide) hDigits
  rw [List.length_map, h] at hLt
  rw [readInt, BitVec.toNat_ofNat]
  exact Nat.mod_eq_of_lt (by omega)

theorem toNat_readInt_eq_iff {bytes : List Byte} (h : bytes.length = 4) {size : Nat}
    (hSize : size < 2 ^ 32) : (readInt bytes).toNat = size ↔ bytes = intBytes size := by
  constructor
  · intro hRead
    have hSame : bytes.map BitVec.toNat = (intBytes size).map BitVec.toNat := by
      apply Nat.ofDigits_inj_of_len_eq (b := 256) (by decide)
      · rw [List.length_map, List.length_map, h, length_intBytes]
      · rintro d hd
        obtain ⟨b, _, rfl⟩ := List.mem_map.mp hd
        exact b.isLt
      · rintro d hd
        obtain ⟨b, _, rfl⟩ := List.mem_map.mp hd
        exact b.isLt
      · rw [← toNat_readInt h, hRead, ofDigits_intBytes hSize]
    exact List.map_injective_iff.mpr (fun _ _ => BitVec.eq_of_toNat_eq) hSame
  · rintro rfl
    rw [toNat_readInt h, ofDigits_intBytes hSize]

/-! ## Sending -/

/-- `while ((bytes_read = fread(buffer, 1, 1024, fp)) > 0)`, of which each turn reads a byte at
least. -/
def sendLoop : Nat → List Byte → List Byte
  | 0, _ => []
  | turns + 1, rest =>
    if rest.isEmpty then [] else rest.take 1024 ++ sendLoop turns (rest.drop 1024)

def sendFile (file : List Byte) : List Byte :=
  intBytes file.length ++ sendLoop file.length file

theorem sendLoop_eq {turns : Nat} {rest : List Byte} (h : rest.length ≤ turns) :
    sendLoop turns rest = rest := by
  induction turns generalizing rest with
  | zero => exact (List.eq_nil_of_length_eq_zero (Nat.le_zero.mp h)).symm
  | succ turns ih =>
    rw [sendLoop]
    split
    · rename_i hEmpty
      exact (List.isEmpty_iff.mp hEmpty).symm
    · rw [ih, List.take_append_drop]
      rw [List.length_drop]
      omega

theorem sendFile_eq (file : List Byte) : sendFile file = intBytes file.length ++ file := by
  rw [sendFile, sendLoop_eq (Nat.le_refl _)]

/-! ## Receiving -/

/-- One side with its `nodes.db`, the bytes that its `int` for the size starts with, and the
sizes of the pieces that its calls of `recv` return. -/
structure Side where
  file : List Byte
  length_file : file.length < 2 ^ 31
  uninit : Region 4
  split : Nat → Nat

def Side.headerLength (side : Side) (incoming : List Byte) : Nat :=
  pieceSize (side.split 0) 4 incoming

/-- The `int` after `recv(sockfd, &file_size, sizeof(file_size), 0)` -/
def Side.receivedSize (side : Side) (incoming : List Byte) : BitVec 32 :=
  let n := side.headerLength incoming
  readInt (incoming.take n ++ side.uninit.bytes.drop n)

inductive Reception
  /-- `malloc` of a negative size fails -/
  | mallocFailed
  | file (bytes : List Byte)
  deriving DecidableEq

/-- From the `recv` of the size to the end of the loop. Nothing comes out if a `recv` waits for
bytes that are never sent. -/
def Side.receiveFile (side : Side) (incoming : List Byte) : Option Reception :=
  if incoming.isEmpty then none
  else
    let size := side.receivedSize incoming
    if size.toInt < 0 then some .mallocFailed
    else
      (receiveAll (fun i => side.split (i + 1)) size.toNat
        (incoming.drop (side.headerLength incoming))).map fun (bytes, _) => .file bytes

structure Finished where
  returned : Int
  saved : Option (List Byte)
  deriving DecidableEq

def theServer (server : Side) (incoming : List Byte) : Option (Finished × List Byte) := do
  match ← server.receiveFile incoming with
  | .mallocFailed => return (⟨1, none⟩, [])
  | .file bytes => return (⟨0, some bytes⟩, sendFile server.file)

/-- `connect_to_server` after it has sent its own file. -/
def connectToServer (client : Side) (incoming : List Byte) : Option Finished := do
  match ← client.receiveFile incoming with
  | .mallocFailed => return ⟨1, none⟩
  | .file bytes => return ⟨0, some bytes⟩

/-- The two run against each other: how the client and the server return, if both do. -/
def exchange (client server : Side) : Option (Finished × Finished) := do
  let (ofServer, sent) ← theServer server (sendFile client.file)
  let ofClient ← connectToServer client sent
  return (ofClient, ofServer)

/-! ## What arrives -/

/-- The `recv` of the size returns all of it, or the bytes missing are in the `int` by chance
and the file begins as it does with these bytes before it. -/
def Side.SizeArrives (side : Side) (file : List Byte) : Prop :=
  let n := side.headerLength (sendFile file)
  let missing := (intBytes file.length).drop n
  n = 4 ∨ (side.uninit.bytes.drop n = missing ∧ (missing ++ file).take file.length = file)

theorem headerLength_le (side : Side) (file : List Byte) :
    side.headerLength (sendFile file) ≤ 4 := (pieceSize_le _ _ _).1

theorem receive_size (side : Side) (file : List Byte) :
    let n := side.headerLength (sendFile file)
    side.receivedSize (sendFile file) =
        readInt ((intBytes file.length).take n ++ side.uninit.bytes.drop n) ∧
      (sendFile file).drop n = (intBytes file.length).drop n ++ file := by
  intro n
  have hLe : n ≤ (intBytes file.length).length := headerLength_le side file
  constructor
  · have hTake : (sendFile file).take n = (intBytes file.length).take n := by
      rw [sendFile_eq, List.take_append_of_le_length hLe]
    exact congrArg (fun bytes => readInt (bytes ++ side.uninit.bytes.drop n)) hTake
  · rw [sendFile_eq, List.drop_append_of_le_length hLe]

theorem length_size_bytes (side : Side) (file : List Byte) {n : Nat} (hLe : n ≤ 4) :
    ((intBytes file.length).take n ++ side.uninit.bytes.drop n).length = 4 := by
  rw [List.length_append, List.length_take, List.length_drop, length_intBytes,
    side.uninit.length_bytes]
  omega

theorem size_bytes_eq_iff (side : Side) (file : List Byte) (n : Nat) :
    (intBytes file.length).take n ++ side.uninit.bytes.drop n = intBytes file.length ↔
      side.uninit.bytes.drop n = (intBytes file.length).drop n := by
  constructor
  · intro h
    exact List.append_cancel_left (h.trans (List.take_append_drop n _).symm)
  · intro h
    rw [h, List.take_append_drop]

theorem Side.receiveFile_file {side : Side} {incoming bytes : List Byte}
    (h : side.receiveFile incoming = some (.file bytes)) :
    (side.receivedSize incoming).toNat = bytes.length ∧
      bytes = (incoming.drop (side.headerLength incoming)).take bytes.length := by
  unfold receiveFile at h
  split at h
  · cases h
  · simp only [receiveAll_eq] at h
    split at h
    · cases h
    · split at h
      · rename_i hEnough
        obtain rfl := Reception.file.inj (Option.some.inj h)
        rw [List.length_take_of_le hEnough]
        exact ⟨rfl, rfl⟩
      · cases h

theorem receiveFile_iff {side : Side} {file bytes : List Byte} (hFile : file.length < 2 ^ 31)
    (h : side.receiveFile (sendFile file) = some (.file bytes)) :
    bytes = file ↔ side.SizeArrives file := by
  obtain ⟨hSize, hBytes⟩ := Side.receiveFile_file h
  obtain ⟨hReceived, hRest⟩ := receive_size side file
  have hLe := headerLength_le side file
  have hFour := length_size_bytes side file hLe
  rw [hReceived] at hSize
  rw [hRest] at hBytes
  constructor
  · rintro rfl
    right
    have hSame := (toNat_readInt_eq_iff hFour (by omega)).mp hSize
    exact ⟨(size_bytes_eq_iff side bytes _).mp hSame, hBytes.symm⟩
  · intro hArrives
    have hBoth : side.uninit.bytes.drop (side.headerLength (sendFile file)) =
        (intBytes file.length).drop (side.headerLength (sendFile file)) ∧
        ((intBytes file.length).drop (side.headerLength (sendFile file)) ++ file).take file.length =
          file := by
      rcases hArrives with hWhole | hChance
      · rw [hWhole, List.drop_eq_nil_of_le (Nat.le_of_eq side.uninit.length_bytes),
          List.drop_eq_nil_of_le (Nat.le_of_eq (length_intBytes _))]
        exact ⟨rfl, List.take_length⟩
      · exact hChance
    have hLength := (toNat_readInt_eq_iff hFour (by omega)).mpr
      ((size_bytes_eq_iff side file _).mpr hBoth.1)
    rw [hBytes, ← hSize, hLength, hBoth.2]

theorem exchange_returned {client server : Side} {savedByClient savedByServer : Option (List Byte)}
    (h : exchange client server = some (⟨0, savedByClient⟩, ⟨0, savedByServer⟩)) :
    ∃ bytes bytes', server.receiveFile (sendFile client.file) = some (.file bytes) ∧
      client.receiveFile (sendFile server.file) = some (.file bytes') ∧
      savedByServer = some bytes ∧ savedByClient = some bytes' := by
  obtain ⟨⟨ofServer, sent⟩, hServer, hRest⟩ := Option.bind_eq_some_iff.mp h
  obtain ⟨ofClient, hClient, hBoth⟩ := Option.bind_eq_some_iff.mp hRest
  obtain ⟨rfl, rfl⟩ := Prod.mk.inj (Option.some.inj hBoth)
  obtain ⟨reception, hReception, hFinish⟩ := Option.bind_eq_some_iff.mp hServer
  cases reception with
  | mallocFailed => cases hFinish
  | file bytes =>
    cases hFinish
    obtain ⟨reception', hReception', hFinish'⟩ := Option.bind_eq_some_iff.mp hClient
    cases reception' with
    | mallocFailed => cases hFinish'
    | file bytes' =>
      cases hFinish'
      exact ⟨bytes, bytes', hReception, hReception', rfl, rfl⟩

/-- When both sides return 0, each has saved the other's file if and only if on both the size
has arrived. -/
theorem exchange_exact_iff (client server : Side) (savedByClient savedByServer : Option (List Byte))
    (h : exchange client server = some (⟨0, savedByClient⟩, ⟨0, savedByServer⟩)) :
    (savedByServer = some client.file ∧ savedByClient = some server.file) ↔
      server.SizeArrives client.file ∧ client.SizeArrives server.file := by
  obtain ⟨bytes, bytes', hServer, hClient, rfl, rfl⟩ := exchange_returned h
  rw [Option.some.injEq, Option.some.injEq, receiveFile_iff client.length_file hServer,
    receiveFile_iff server.length_file hClient]

def sideWith (file : List Byte) (h : file.length < 2 ^ 31) (split : Nat → Nat) : Side :=
  ⟨file, h, ⟨[0, 0, 0, 0], rfl⟩, split⟩

/-- The server's first `recv` returns one byte of the size; the next byte of it is saved. -/
theorem exchange_not_exact :
    exchange (sideWith [7] (by decide) fun _ => 4) (sideWith [] (by decide) fun _ => 1) =
      some (⟨0, some []⟩, ⟨0, some [0]⟩) := by
  decide +kernel

theorem exchange_exact_iff_byte :
    let client := sideWith [7] (by decide) fun _ => 4
    let server := sideWith [8, 9] (by decide) fun i => 4 - i
    (some [7] = some client.file ∧ some [8, 9] = some server.file) ↔
      server.SizeArrives client.file ∧ client.SizeArrives server.file := by
  intro client server
  exact exchange_exact_iff client server (some [8, 9]) (some [7]) (by decide +kernel)

end Manhattan.Nodes
