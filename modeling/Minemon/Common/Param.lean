import Minemon.Lib.Codec
import Minemon.Lib.Int64

/-!
# Parameters

The constants of `common/param.h`, the error codes, and `Env`: the network the node runs on and the
primitives of the crypto library it is linked with.
-/

namespace Minemon

/-- What the node is built with: `TESTNET_FLAG`, and the hash and signature primitives of the crypto
library. -/
structure Env where
  /-- `TESTNET_FLAG` -/
  testnet : Bool
  /-- `crypto_generichash_blake2b` with an output of 32 bytes -/
  cryptoHash : List UInt8 → Fin (2 ^ 256)
  /-- `crypto_hash_sha256` -/
  cryptoSHA256 : List UInt8 → Fin (2 ^ 256)
  /-- `crypto_sign_ed25519_verify_detached` on a signature of 64 bytes -/
  ed25519Verify : ℕ → List UInt8 → List UInt8 → Bool

def Env.getParam {α : Type*} (E : Env) (mainnet testnet : α) : α := if E.testnet then testnet else mainnet

/-! ## Money -/

def COIN : ℤ := 1000000
def CENT : ℤ := 10000
def MIN_TX_FEE : ℤ := CENT
def MAX_MONEY : ℤ := 1000000000000 * COIN

def moneyRange (nValue : ℤ) : Bool := 0 ≤ nValue && nValue ≤ MAX_MONEY

def BPX_INIT_REWARD_TOKEN : ℤ := 0 * COIN
def BPX_INIT_BLOCK_REWARD_TOKEN : ℤ := 100 * COIN
def BPX_REWARD_HALVE_HEIGHT : ℕ := 60 * 24 * 365 * 2
def BPX_POW_REWARD_RATE : ℤ := 382
def BPX_TOTAL_REWARD_RATE : ℤ := 1000
def BPX_MIN_PLEDGE_COIN : ℤ := 100 * COIN

/-! ## Sizes and times -/

def MAX_BLOCK_SIZE : ℕ := 2000000
def MAX_TX_SIZE : ℕ := MAX_BLOCK_SIZE / 20
def BLOCK_TARGET_SPACING : ℕ := 60
def MAX_CLOCK_DRIFT : ℤ := 80
def PROOFHASHWORK_SIZE : ℕ := 860

/-! ## Network parameters -/

section Network

variable (E : Env)

def PROOF_OF_WORK_BITS_LOWER_LIMIT : ℕ := E.getParam 45 8
def PROOF_OF_WORK_BITS_UPPER_LIMIT : ℕ := 200
def PROOF_OF_WORK_BITS_INIT : ℕ := E.getParam 50 20
def PROOF_OF_WORK_DIFFICULTY_INTERVAL : ℕ := E.getParam 2880 2880
def BPX_REPEAT_MINT_HEIGHT : ℕ := E.getParam 100 1
def BPX_PLEDGE_REWARD_DISTRIBUTE_HEIGHT : ℕ := E.getParam 1440 5
def BPX_REDEEM_DAY_COUNT : ℕ := E.getParam 100 10
def BPX_REDEEM_DAY_HEIGHT : ℕ := E.getParam 1440 5

theorem distribute_height_pos : 0 < BPX_PLEDGE_REWARD_DISTRIBUTE_HEIGHT E := by
  unfold BPX_PLEDGE_REWARD_DISTRIBUTE_HEIGHT Env.getParam
  split_ifs <;> norm_num

end Network

/-! ## Error codes -/

/-- `Errno`: the codes that the checks of blocks and transactions return. -/
inductive Errno
  | OK
  | ERR_NOT_FOUND
  | ERR_ALREADY_HAVE
  | ERR_MISSING_PREV
  | ERR_SYS_STORAGE_ERROR
  | ERR_BLOCK_TYPE_INVALID
  | ERR_BLOCK_OVERSIZE
  | ERR_BLOCK_PROOF_OF_WORK_INVALID
  | ERR_BLOCK_TIMESTAMP_OUT_OF_RANGE
  | ERR_BLOCK_TRANSACTIONS_INVALID
  | ERR_BLOCK_DUPLICATED_TRANSACTION
  | ERR_BLOCK_TXHASH_MISMATCH
  | ERR_BLOCK_INVALID_FORK
  | ERR_TRANSACTION_INVALID
  | ERR_TRANSACTION_OVERSIZE
  | ERR_TRANSACTION_OUTPUT_INVALID
  | ERR_TRANSACTION_INPUT_INVALID
  | ERR_TRANSACTION_SIGNATURE_INVALID
  | ERR_TRANSACTION_CONFLICTING_INPUT
deriving DecidableEq, Repr

/-! ## Hashes and signatures -/

section Crypto

variable (E : Env)

def Env.hash (bs : List UInt8) : ℕ := (E.cryptoHash bs).val

def Env.sha256 (bs : List UInt8) : ℕ := (E.cryptoSHA256 bs).val

/-- `CryptoSHA256D`: the hash of the 32 bytes of the hash. -/
def Env.sha256D (bs : List UInt8) : ℕ := E.sha256 (leBytes 32 (E.sha256 bs))

def Env.cryptoVerify (pubkey : ℕ) (md vchSig : List UInt8) : Bool :=
  vchSig.length == 64 && E.ed25519Verify pubkey md vchSig

end Crypto

end Minemon
