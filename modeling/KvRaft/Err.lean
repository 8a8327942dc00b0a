import KvRaft.Lib.Bytes

/-! # Errors

The errors of the store, the payload codecs, the log record keys, the state machine and the daemon.
A constructor stands for one error text of the source and carries the values formatted into it;
`wrap` is a `%w` wrapping, with the wrapping text as its context. Errors of the libraries underneath
(raft, the network, the file system) are `lib`, with their text. -/

namespace KvRaft

inductive CompareFailure
  | keyExists
  | keyMissing
  | differentValue
deriving DecidableEq, Repr

inductive Ctx
  | commandSpec
  | commandSpecDecodeIncoming
  | commandSpecReencode
  | commandSpecReadExisting
  | confirmNoPending
  | consumeInviteNoSuch
  | consumeExecInviteNoSuch
  | consumeExecInviteDecode
  | consumeExecInviteAcl
  | appendRequestDecode
  | appendRequestParseKey
  | appendRequestAcl
  | grantChannelRelay (peerID : Bytes)
  | txnDecode
  | txnRead (i : Nat) (key : Bytes)
  | txnOp (key : Bytes)
  -- pkg/shmevent
  | newTxnOp (i : Nat)
  -- pkg/daemon
  | initRaft
  | bootstrap
  | awaitSelfElection
  | bootstrapReservedGroups
  | bootstrapDefaultPublicCommand
  | createPersonalGroup (peerID : Bytes)
  | createReservedGroup (id : Bytes)
  | createDefaultPublicGroup
  | encodeDefaultPublicCommand
  | createDefaultPublicCommand
  | buildDefaultPublicLink
  | linkDefaultPublicCommand
  | join
  | clusterJoinRead (peerID : Bytes)
  | clusterJoinDecode (peerID : Bytes)
  | clusterJoin
  | invite
  | invalidInvite
  | malformedJoinRequest
  | forwardJoin
  | clientAddForward
  | forwardSetDecode
  | forwardConfirmDecode
  | recruitMint
  | generateToken
  | execInvite
  | execInviteInvalid
  | execInviteCommandNotFound (commandID : Bytes)
  | execInviteDecodeCommand (commandID : Bytes)
  | execInviteGenerateID
  | execInviteWriteRequest
  | execInviteWriteRequesterIndex
  | execInviteWriteTargetIndex
  -- pkg/kvctl
  | getCommandRequest
  | listCommandRequests
  | commandDecode (commandID : Bytes)
  | listExecutionsDecode
  | logAppend
  | logQueryDecode
deriving DecidableEq, Repr

/-- The events a remote caller is refused, each with a text of its own. -/
inductive Refused
  | getPrivateKey
  | getPublicKey
  | leave
  | execInviteRedeem
  | joinRequestCreate
  | joinRequestCancel
  | recruit
  | publicAccess
  | dialSubmitCommand
  | dialQueryCommandLog
  | channelOpen
  | channelSend
  | channelPoll
  | channelListen
  | channelClose
  | channelCloseWrite
  | channelDataReady
deriving DecidableEq, Repr

inductive Err
  -- pkg/store
  | notFound
  | unexpectedEOF
  | uniqueConstraint
  -- pkg/shmevent
  | relationIDTooLong (kind : UInt8) (n : Nat)
  | notRelationKey (kind : UInt8)
  | relationKeyTruncated (kind : UInt8)
  | groupPayloadEmpty
  | commandPayloadTooShort (n : Nat)
  | commandNameTooLong (n : Nat)
  | commandPeerIDTooLong (n : Nat)
  | commandNameLengthTruncated
  | commandNameExceeds (n size : Nat)
  | commandPeerExceeds (n size : Nat)
  | execInviteTooShort (n : Nat)
  | execInviteV2TooShort (n : Nat)
  | execInviteCommandExceeds (n size : Nat)
  | joinInviteSize (n : Nat)
  | requestPayloadTooShort (n : Nat)
  | requestAuthorExceeds (n size : Nat)
  | requestAuthorTooLong (n : Nat)
  | txnTooManyOps (n : Nat)
  | txnEmptyKey
  | txnKeyTooLong (n : Nat)
  | txnValueTooLong (n : Nat)
  | txnUnknownKind (op : UInt8)
  | txnTooShort (n : Nat)
  | txnTruncated (i : Nat)
  | txnTruncatedKey (i : Nat)
  | txnTruncatedValue (i : Nat)
  | txnTrailing (n : Nat)
  | newTxnTooManyOps (n : Nat)
  | valueExceedsMax (n : Nat)
  -- pkg/logrecord
  | keyMissingLogKeyPrefix
  | keyTruncatedBeforeKindLength
  | keyTruncatedInKind
  | keyTruncatedBeforeUnitIDLength
  | keyTruncatedInUnitID
  | keyTruncatedBeforeTimestamp
  | kindTooLong (n : Nat)
  | unitIDTooLong (n : Nat)
  | jsonSyntax
  | jsonType
  -- pkg/kvfsm
  | commandTooShort
  | truncatedKey
  | missingValueLength
  | truncatedValue
  | unknownOp (op : UInt8)
  | listAtCapacity (list : Bytes) (limit : Nat)
  | groupNameUsed (name : Bytes)
  | cascadeNotSystemKey
  | cascadeUnsupportedKind (kind : UInt8)
  | execInviteExpired
  | execInviteNotPermitted (peerID commandID : Bytes)
  | notCommandRequestKind (kind : Bytes)
  | requestNotPermitted (peerID commandID : Bytes)
  | txnOpUnknownKind (i : Nat) (op : UInt8)
  | compareFailed (i : Nat) (key : Bytes) (why : CompareFailure)
  -- pkg/daemon
  | lib (text : Bytes)
  | notAddedToCluster
  | notLeaderNoLeader
  | alreadyForwarded (leaderID : Bytes)
  | forwardEmpty
  | forwardMalformed (n : Nat)
  | forwardRejected (text : Bytes)
  | forwardStatus (b : UInt8)
  | forwardSetOp (op : UInt8)
  | forwardConfirmRejected (text : Bytes)
  | forwardConfirmOp (op : UInt8)
  | forwardLeaveRejected (text : Bytes)
  | forwardKickRejected (text : Bytes)
  | kickMissingPeer
  | notVoter (peerID : Bytes)
  | reservedForSystem
  | reservedForLogrecord
  | notAvailableToRemote (event : Refused)
  | notPermitted (peerID self : Bytes)
  | noEntryRegistered (id : UInt16)
  | noKeyRegistered (id : UInt16)
  | noPeerIDRegistered (id : UInt16)
  | executeNoSource (id : UInt16)
  | executeNoDestination (id : UInt16)
  | executeNotOwnSource (source self : Bytes)
  | executeInvalidDestination (dest : Bytes)
  | groupReserved (id : Bytes)
  | groupReservedDelete (id : Bytes)
  | groupManaged (id : Bytes)
  | stationPeerEmpty
  | stationNameTooLong (n : Nat)
  | clusterJoinMetadata
  | claimMismatch (claimed peerID : Bytes)
  | clientAddMissing
  | clientAddNoLeader
  | joinLineTooLong
  | joinLineEmpty
  | joinLineFields (line : Bytes)
  | joinLineSuffrage (word : Bytes)
  | inviteTokenHex (text : Bytes)
  | joinNotLeader
  | noResponse (peerID : Bytes)
  | joinRejected (line : Bytes)
  | recruitNoToken (ticket : Bytes)
  | recruitNoAddress (ticket : Bytes)
  | recruitRejected (line : Bytes)
  | logAppendPrefix
  | dataTooLarge
  | unknownEvent (name : Bytes)
  -- pkg/shmclient
  | scanRangeLimit (limit : Int64)
  | scanRangeSkip (skip : Int64)
  | scanRangeOrder (order : Bytes)
  -- pkg/kvctl
  | commandRequestNotFound (instanceID commandID : Bytes)
  | commandNotFound (commandID : Bytes)
  | listExecutionsNoPeer
  | instanceIDEmpty
  | wrap (ctx : Ctx) (e : Err)
deriving DecidableEq, Repr

end KvRaft
