-- SUMMARY: Capacities of the main network, which fix the depths of its hash trees.

/-!
# Preset

These numbers are the maximum lengths of lists and bitlists in the catalogue of
records. Changing one changes the root of every record that has the list.
-/

namespace Ssz.Preset

def maxValidatorsPerCommittee : Nat := 2048
def syncCommitteeSize : Nat := 512

def maxProposerSlashings : Nat := 16
def maxAttesterSlashings : Nat := 2
def maxAttestations : Nat := 128
def maxDeposits : Nat := 16
def maxVoluntaryExits : Nat := 16

/-- Depth of the tree of deposits. -/
def depositTreeDepth : Nat := 32

/-- A proof of a deposit has one node more, for the number of deposits. -/
def depositProofLength : Nat := depositTreeDepth + 1

/-- All capacities by name. -/
def table : List (String × Nat) := [
  ("MAX_VALIDATORS_PER_COMMITTEE", maxValidatorsPerCommittee),
  ("SYNC_COMMITTEE_SIZE", syncCommitteeSize),
  ("MAX_PROPOSER_SLASHINGS", maxProposerSlashings),
  ("MAX_ATTESTER_SLASHINGS", maxAttesterSlashings),
  ("MAX_ATTESTATIONS", maxAttestations),
  ("MAX_DEPOSITS", maxDeposits),
  ("MAX_VOLUNTARY_EXITS", maxVoluntaryExits),
  ("DEPOSIT_CONTRACT_TREE_DEPTH", depositTreeDepth),
  ("DEPOSIT_PROOF_LENGTH", depositProofLength)]

end Ssz.Preset
