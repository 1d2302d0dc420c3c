-- SUMMARY: Golden vectors: values with their known text, encoding and root.
import Ssz.Catalogue.Altair
import Ssz.Text.Codec

/-!
# Golden vectors

A vector holds the JSON text of a value, its encoding and its root. Checking one
runs all codecs over it, so that a change of any of them shows.
-/

namespace Ssz.Golden

structure GoldenVector where
  name : String
  shape : Shape
  /-- Compact JSON text. -/
  json : String
  /-- Digits of the encoding. -/
  ssz : String
  /-- Digits of the root. -/
  root : String

/-- Check a text and an encoding against each other. Gives the digits of the root, or a
    description of the first difference. -/
def check (shape : Shape) (json ssz : String) : Except String String := do
  let value ← (fromJson shape json).mapError fun e => s!"from_json: {e.message}"
  let written ← (toJson shape value).mapError fun e => s!"to_json: {e.message}"
  if written ≠ json then throw s!"JSON drift: {written}"
  let bytes ← (encode shape value).mapError fun e => s!"encode: {e.message}"
  if Hex.render bytes ≠ ssz then throw s!"encoding drift: {Hex.render bytes}"
  let decoded ← (decode shape bytes).mapError fun e => s!"decode: {e.message}"
  if decoded ≠ value then throw "decoded value differs"
  let root ← (hashTreeRoot shape value).mapError fun e => s!"digest: {e.message}"
  return Hex.render root.toList

/-- The vectors that come with the library. -/
def vectors : List GoldenVector := [
  { name := "DepositMessage with sequential keys"
    shape := Phase0.depositMessage.shape
    json := "\x7b\"pubkey\":\"0x000102030405060708090a0b0c0d0e0f101112131415161718191a1b1c1d1e1f2"
      ++ "02122232425262728292a2b2c2d2e2f\",\"withdrawal_credentials\":\"0x2021222324252627282"
      ++ "92a2b2c2d2e2f303132333435363738393a3b3c3d3e3f\",\"amount\":\"32000000000\"\x7d"
    ssz := "000102030405060708090a0b0c0d0e0f101112131415161718191a1b1c1d1e1f202122232425262728"
      ++ "292a2b2c2d2e2f202122232425262728292a2b2c2d2e2f303132333435363738393a3b3c3d3e3f0040"
      ++ "597307000000"
    root := "010aa56097fc6a6a16b8f3dfeec37f6b4116423531b355c3f69b8ad1cbe294bd" },
  { name := "SyncAggregate with partial participation"
    shape := Altair.syncAggregate.shape
    json := "\x7b\"sync_committee_bits\":\"0xe7fcbc21f184b9b89bfc57cc07232a4fce8e12efee3a8c496793"
      ++ "2491267a215cd0aff3e79f19645d6f832592f93d91271071a4e911d3f64447e1f6f68247fdec\",\"syn"
      ++ "c_committee_signature\":\"0xe63b8ab602266593dbfe7f714891c5fed225e09c214bda8281c86ced"
      ++ "db6ee10727a854f213d33be1f032399e0044db6fa30368b6dc857fa8f12f61fc3bf4113a6e9cefeb1175"
      ++ "8fb01a9939950e127d71dc9c54a26aec63ef024b6620e6d32e44\"\x7d"
    ssz := "e7fcbc21f184b9b89bfc57cc07232a4fce8e12efee3a8c4967932491267a215cd0aff3e79f19645d6f"
      ++ "832592f93d91271071a4e911d3f64447e1f6f68247fdece63b8ab602266593dbfe7f714891c5fed225"
      ++ "e09c214bda8281c86ceddb6ee10727a854f213d33be1f032399e0044db6fa30368b6dc857fa8f12f61"
      ++ "fc3bf4113a6e9cefeb11758fb01a9939950e127d71dc9c54a26aec63ef024b6620e6d32e44"
    root := "cbbe7125cc8f67f40d66b5c10420ebc93757f8b7883b7b8f436c4ac7f1901b2c" },
  { name := "Checkpoint"
    shape := Phase0.checkpoint.shape
    json := "\x7b\"epoch\":\"3\",\"root\":\"0xccccccccccccccccccccccccccccccccccccccccccccccccccc"
      ++ "ccccccccccccc\"\x7d"
    ssz := "0300000000000000cccccccccccccccccccccccccccccccccccccccccccccccccccccccccccccccc"
    root := "e4452df6c55c689ae037b0a24544c6ceafd866a63f5ba03d8fc20de28330a686" },
  { name := "VoluntaryExit"
    shape := Phase0.voluntaryExit.shape
    json := "\x7b\"epoch\":\"4\",\"validator_index\":\"99\"\x7d"
    ssz := "04000000000000006300000000000000"
    root := "44fc09b5cadf397e514be1e2a3cb8b7a8cabad8b5cacd73324d74f71d63c8aef" },
  { name := "Eth1Data"
    shape := Phase0.eth1Data.shape
    json := "\x7b\"deposit_root\":\"0x01010101010101010101010101010101010101010101010101010101010"
      ++ "10101\",\"deposit_count\":\"42\",\"block_hash\":\"0x02020202020202020202020202020202"
      ++ "02020202020202020202020202020202\"\x7d"
    ssz := "01010101010101010101010101010101010101010101010101010101010101012a0000000000000002"
      ++ "02020202020202020202020202020202020202020202020202020202020202"
    root := "2e91c08bbdc38040de821117df81f55101b041092aacc7857a2cee2d34e7b634" }]

/-- The outcome of a check. -/
structure Outcome where
  name : String
  isMatch : Bool
  /-- The digits of the root that was found, or what was wrong. -/
  found : String

/-- Check one vector. -/
def run (v : GoldenVector) : Outcome :=
  match check v.shape v.json v.ssz with
  | .ok root => ⟨v.name, root == v.root, root⟩
  | .error what => ⟨v.name, false, what⟩

/-- Check all vectors that come with the library. -/
def runAll : List Outcome := vectors.map run

end Ssz.Golden
