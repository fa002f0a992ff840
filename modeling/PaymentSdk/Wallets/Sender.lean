import PaymentSdk.Base.Decimal
import PaymentSdk.Indexing.Value

/-!
# Sending through wallets

The errors of the wallet layer, and what a batch sender says about the part of a batch
that was accepted before it stopped.
-/

namespace PaymentSdk

/-- The error of a source. A retryable one may go away by itself. -/
structure SourceError where
  message : String
  retryable : Bool
  deriving DecidableEq

/-- The text of a transaction id. -/
abbrev Id := String

inductive TransactionErrorKind where
  | invalidAddress
  | invalidAmount
  | invalidSnapshot
  | invalidTransaction
  | unsupported
  | insufficientFunds
  | fee
  | signing
  | unavailable
  | divergent
  | rejected
  | unknown
  | timeout
  deriving DecidableEq

/-- With an ambiguous id, the transaction may have been accepted. -/
structure TransactionError where
  kind : TransactionErrorKind
  message : String
  ambiguousTransactionId : Option Id := none
  deriving DecidableEq

namespace Wallets

inductive ErrorKind where
  | unsupported
  | duplicate
  | notFound
  | conflict
  | unavailable
  | sourceBusy
  | generation
  | invalidSecret
  | invalidAddress
  | invalidAmount
  | invalidBatch
  | addressMismatch
  | balance
  | history
  | transaction
  deriving DecidableEq

structure Error where
  kind : ErrorKind
  message : String
  ambiguousTransactionId : Option Id := none
  deriving DecidableEq

/-- `From<IndexError>`. -/
def Error.ofIndex (error : IndexError) : Error where
  kind := match error.kind with
    | .conflict => .conflict
    | .scopeMismatch | .invalidRequest => .unsupported
    | .source | .store | .invalidBlock | .cannotConnect | .reorgTooDeep => .unavailable
  message := error.message

/-- `From<TransactionError>`. -/
def Error.ofTransaction (error : TransactionError) : Error where
  kind := match error.kind with
    | .invalidAddress => .invalidAddress
    | .invalidAmount => .invalidAmount
    | .unavailable | .unknown | .timeout => .unavailable
    | .invalidSnapshot | .invalidTransaction | .unsupported | .insufficientFunds | .fee | .signing
    | .divergent | .rejected => .transaction
  message := error.message
  ambiguousTransactionId := error.ambiguousTransactionId

/-- The error of a batch, with what was accepted before it. -/
structure SendError where
  accepted : List Id
  failedIndex : Option Nat
  ambiguousTransactionId : Option Id
  source : Error
  deriving DecidableEq

namespace SendError

/-- The ambiguous id moves from the source to the whole error. -/
def new (accepted : List Id) (failedIndex : Option Nat) (source : Error) : SendError :=
  ⟨accepted, failedIndex, source.ambiguousTransactionId, { source with ambiguousTransactionId := none }⟩

def definite (kind : ErrorKind) (message : String) : SendError :=
  ⟨[], none, none, { kind, message }⟩

def collection (kind : ErrorKind) (message : String) : SendError := definite kind message

def operation (kind : ErrorKind) (message : String) : SendError := definite kind message

def item (failedIndex : Nat) (accepted : List Id) (source : Error) : SendError :=
  new accepted (some failedIndex) source

def grouped (accepted : List Id) (source : Error) : SendError := new accepted none source

end SendError

def maxTransfers : Nat := 50

inductive AddressEncoding where
  | base58
  | base58Check
  | bech32
  | bech32m
  | hex
  deriving DecidableEq

/-- An address as the user writes it. -/
structure AddressText where
  encoding : AddressEncoding
  text : String
  deriving DecidableEq

/-- What a batch sender uses of a `dyn Wallet`. -/
structure Wallet where
  address : List UInt8
  parseAddress : AddressText → Except Error (List UInt8)

/-- One transfer of a batch. -/
structure Transfer where
  wallet : Wallet
  destination : AddressText
  amount : Decimal

end Wallets

end PaymentSdk
