-- SUMMARY: The records of phase 0.
import Ssz.Preset
import Ssz.Ty

/-!
# Phase 0

Each record gives its fields in order, with the label that messages use.
-/

namespace Ssz.Phase0

open Ty

/-- Version of a fork. -/
def version : Ty := .byteArray 4

def fork : Ty := .record "Fork" [
  ⟨"previous_version", "previous version", version⟩,
  ⟨"current_version", "current version", version⟩,
  ⟨"epoch", "epoch", uint64⟩]

def checkpoint : Ty := .record "Checkpoint" [
  ⟨"epoch", "epoch", uint64⟩,
  ⟨"root", "root", root⟩]

def eth1Data : Ty := .record "Eth1Data" [
  ⟨"deposit_root", "deposit root", root⟩,
  ⟨"deposit_count", "deposit count", uint64⟩,
  ⟨"block_hash", "block hash", root⟩]

/-- The signed part of a deposit. -/
def depositMessage : Ty := .record "DepositMessage" [
  ⟨"pubkey", "public key", publicKey⟩,
  ⟨"withdrawal_credentials", "withdrawal credentials", root⟩,
  ⟨"amount", "amount", uint64⟩]

def depositData : Ty := .record "DepositData" [
  ⟨"pubkey", "public key", publicKey⟩,
  ⟨"withdrawal_credentials", "withdrawal credentials", root⟩,
  ⟨"amount", "amount", uint64⟩,
  ⟨"signature", "signature", signature⟩]

/-- A deposit with the path from it to the root of the tree of deposits. -/
def deposit : Ty := .record "Deposit" [
  ⟨"proof", "proof", .vector root Preset.depositProofLength⟩,
  ⟨"data", "data", depositData⟩]

def beaconBlockHeader : Ty := .record "BeaconBlockHeader" [
  ⟨"slot", "slot", uint64⟩,
  ⟨"proposer_index", "proposer index", uint64⟩,
  ⟨"parent_root", "parent root", root⟩,
  ⟨"state_root", "state root", root⟩,
  ⟨"body_root", "body root", root⟩]

def signedBeaconBlockHeader : Ty := .record "SignedBeaconBlockHeader" [
  ⟨"message", "message", beaconBlockHeader⟩,
  ⟨"signature", "signature", signature⟩]

/-- Two headers that one proposer signed for one slot. -/
def proposerSlashing : Ty := .record "ProposerSlashing" [
  ⟨"signed_header_1", "signed header 1", signedBeaconBlockHeader⟩,
  ⟨"signed_header_2", "signed header 2", signedBeaconBlockHeader⟩]

def attestationData : Ty := .record "AttestationData" [
  ⟨"slot", "slot", uint64⟩,
  ⟨"index", "index", uint64⟩,
  ⟨"beacon_block_root", "beacon block root", root⟩,
  ⟨"source", "source", checkpoint⟩,
  ⟨"target", "target", checkpoint⟩]

def attestation : Ty := .record "Attestation" [
  ⟨"aggregation_bits", "aggregation bits", .bitList Preset.maxValidatorsPerCommittee⟩,
  ⟨"data", "data", attestationData⟩,
  ⟨"signature", "signature", signature⟩]

def indexedAttestation : Ty := .record "IndexedAttestation" [
  ⟨"attesting_indices", "attesting indices", .list uint64 Preset.maxValidatorsPerCommittee⟩,
  ⟨"data", "data", attestationData⟩,
  ⟨"signature", "signature", signature⟩]

def attesterSlashing : Ty := .record "AttesterSlashing" [
  ⟨"attestation_1", "attestation 1", indexedAttestation⟩,
  ⟨"attestation_2", "attestation 2", indexedAttestation⟩]

def voluntaryExit : Ty := .record "VoluntaryExit" [
  ⟨"epoch", "epoch", uint64⟩,
  ⟨"validator_index", "validator index", uint64⟩]

def signedVoluntaryExit : Ty := .record "SignedVoluntaryExit" [
  ⟨"message", "message", voluntaryExit⟩,
  ⟨"signature", "signature", signature⟩]

/-- All records of the phase. -/
def records : List Ty := [
  fork, checkpoint, eth1Data, depositMessage, depositData, deposit, beaconBlockHeader,
  signedBeaconBlockHeader, proposerSlashing, attestationData, attestation, indexedAttestation,
  attesterSlashing, voluntaryExit, signedVoluntaryExit]

end Ssz.Phase0
