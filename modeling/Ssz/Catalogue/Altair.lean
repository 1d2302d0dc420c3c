-- SUMMARY: The records of Altair: the sync aggregate and the blocks that carry it.
import Ssz.Catalogue.Phase0

/-!
# Altair

The fork adds an aggregate of signatures of the sync committee to blocks.
-/

namespace Ssz.Altair

open Ty Phase0

/-- Who took part in the sync committee, and the signature of all of them. -/
def syncAggregate : Ty := .record "SyncAggregate" [
  ⟨"sync_committee_bits", "sync committee bits", .bitVector Preset.syncCommitteeSize⟩,
  ⟨"sync_committee_signature", "sync committee signature", signature⟩]

def beaconBlockBody : Ty := .record "BeaconBlockBody" [
  ⟨"randao_reveal", "RANDAO reveal", signature⟩,
  ⟨"eth1_data", "ETH1 data", eth1Data⟩,
  ⟨"graffiti", "graffiti", .byteArray 32⟩,
  ⟨"proposer_slashings", "proposer slashings", .list proposerSlashing Preset.maxProposerSlashings⟩,
  ⟨"attester_slashings", "attester slashings", .list attesterSlashing Preset.maxAttesterSlashings⟩,
  ⟨"attestations", "attestations", .list attestation Preset.maxAttestations⟩,
  ⟨"deposits", "deposits", .list deposit Preset.maxDeposits⟩,
  ⟨"voluntary_exits", "voluntary exits", .list signedVoluntaryExit Preset.maxVoluntaryExits⟩,
  ⟨"sync_aggregate", "sync aggregate", syncAggregate⟩]

def beaconBlock : Ty := .record "BeaconBlock" [
  ⟨"slot", "slot", uint64⟩,
  ⟨"proposer_index", "proposer index", uint64⟩,
  ⟨"parent_root", "parent root", root⟩,
  ⟨"state_root", "state root", root⟩,
  ⟨"body", "body", beaconBlockBody⟩]

def signedBeaconBlock : Ty := .record "SignedBeaconBlock" [
  ⟨"message", "message", beaconBlock⟩,
  ⟨"signature", "signature", signature⟩]

/-- All records that the fork adds. -/
def records : List Ty := [syncAggregate, beaconBlockBody, beaconBlock, signedBeaconBlock]

end Ssz.Altair
