/-
# `OpenViking.Queuefs.CacheProtocol` — the scripts of the cache backend

`plugins/queuefs/cache_protocol.rs`.  The queues of one key prefix live in a
Redis keyspace: the set of names, and for every queue a hash, a list of pending
ids, a sorted set of `id|instance` members and one string per message.  The
scripts are Lua and run atomically; they are written here command by command.

Lua compares bytes.  A name is valid UTF-8 and the texts it is compared with end
in an ASCII character, so a byte prefix is a prefix of characters.

All keys are texts built from the queue's name, which may be any string.
`key_injective` says that no two of them coincide all the same: what comes after
the last `:` tells the kind of the key, as a message id has no `:` in it.
-/
import OpenViking.Lib.Keyspace
import OpenViking.Queuefs.Backends

namespace OpenViking.Queuefs

open OpenViking.Lib
open OpenViking.Lib.Keyspace

/-! ## Keys -/

/-- `{{{key_prefix}}}:ov:queue:` -/
def queueKeyPrefix (keyPrefix : Str) : Str :=
  '\x7b' :: keyPrefix ++ ['\x7d', ':', 'o', 'v', ':', 'q', 'u', 'e', 'u', 'e', ':']

def queueNamesKey (keyPrefix : Str) : Str := queueKeyPrefix keyPrefix ++ ['n', 'a', 'm', 'e', 's']

def instanceKeyPrefix (keyPrefix : Str) : Str :=
  queueKeyPrefix keyPrefix ++ ['i', 'n', 's', 't', 'a', 'n', 'c', 'e', ':']

def heartbeatKey (keyPrefix : Str) (instanceId : Uuid) : Str :=
  instanceKeyPrefix keyPrefix ++ instanceId.val ++ [':', 'a', 'l', 'i', 'v', 'e']

structure QueueKeys where
  info : Str
  pending : Str
  processing : Str
  messagePrefix : Str

namespace QueueKeys

/-- The keys below the prefix of one queue -/
def below (pre : Str) : QueueKeys :=
  ⟨pre ++ [':', 'm', 'e', 't', 'a'], pre ++ [':', 'p', 'e', 'n', 'd', 'i', 'n', 'g'],
    pre ++ [':', 'p', 'r', 'o', 'c', 'e', 's', 's', 'i', 'n', 'g'],
    pre ++ [':', 'm', 's', 'g', ':']⟩

def new (keyPrefix queue : Str) : QueueKeys := below (queueKeyPrefix keyPrefix ++ queue)

def message (keys : QueueKeys) (messageId : Str) : Str := keys.messagePrefix ++ messageId

end QueueKeys

/-- `string.find(member, '|', 1, true)` and the two parts it separates -/
def memberParts (member : Str) : Option (Str × Str) := splitOnce '|' member

/-! ## Scripts -/

def secs (now : Nat) : Str := Nat.toDigits 10 now

/-- The two fields of a queue's hash -/
def createdAt : Str := ['c', 'r', 'e', 'a', 't', 'e', 'd', '_', 'a', 't']

def lastUpdated : Str := ['l', 'a', 's', 't', '_', 'u', 'p', 'd', 'a', 't', 'e', 'd']

theorem createdAt_ne_lastUpdated : createdAt ≠ lastUpdated := by decide

/-- `CREATE_QUEUE_SCRIPT` -/
def createQueueScript (names info name : Str) (now : Nat) : Script Nat := do
  if ← sadd names name then
    hset info createdAt (secs now)
    hset info lastUpdated (secs now)
    pure 1
  else pure 0

/-- Delete the payload of every id in the list. -/
def delMessages (messagePrefix : Str) : List Str → Script Unit
  | [] => pure ()
  | id :: ids => do
      del (messagePrefix ++ id)
      delMessages messagePrefix ids

/-- Delete the payload of every member of the sorted set. -/
def delMembers (messagePrefix : Str) : List Str → Script Unit
  | [] => pure ()
  | member :: members => do
      match memberParts member with
      | some (id, _) => del (messagePrefix ++ id)
      | none => pure ()
      delMembers messagePrefix members

/-- The body of the loop of `REMOVE_QUEUE_SCRIPT` -/
def removeOne (names keyPrefix queue : Str) : Script Unit := do
  let keys := QueueKeys.below (keyPrefix ++ queue)
  let pending ← lrange keys.pending
  delMessages keys.messagePrefix pending
  let processing ← zrange keys.processing
  delMembers keys.messagePrefix processing
  del keys.info
  del keys.pending
  del keys.processing
  srem names queue

/-- `queue == ARGV[1] or string.sub(queue, 1, string.len(ARGV[1]) + 1) == ARGV[1] .. '/'` -/
def luaBelow (name queue : Str) : Bool :=
  queue = name || queue.take (name.length + 1) = name ++ ['/']

def removeLoop (names keyPrefix name : Str) : List Str → Nat → Script Nat
  | [], removed => pure removed
  | queue :: queues, removed => do
      if luaBelow name queue then
        removeOne names keyPrefix queue
        removeLoop names keyPrefix name queues (removed + 1)
      else removeLoop names keyPrefix name queues removed

/-- `REMOVE_QUEUE_SCRIPT` -/
def removeQueueScript (names keyPrefix name : Str) : Script Nat := do
  let queues ← smembers names
  removeLoop names keyPrefix name queues 0

/-! ## The calls of the backend

`plugins/queuefs/cache_backend.rs`.  A failed command of the provider is an
internal error that names the operation. -/

structure CacheQueueStorage where
  keyPrefix : Str
  instanceId : Uuid

namespace CacheQueueStorage

abbrev Call (α : Type) : Type := Act Error Keyspace α

/-- `cache_error` on an error reply -/
def cacheError (operation : String) (message : Str) : Error :=
  .internal ("cache ".toList ++ operation.toList ++ [':', ' '] ++ message)

def execute {α : Type} (operation : String) (script : Script α) : Call α := fun ks =>
  ((script ks).1.mapError (cacheError operation), (script ks).2)

variable (storage : CacheQueueStorage)

def names : Str := queueNamesKey storage.keyPrefix

def keys (name : Str) : QueueKeys := QueueKeys.new storage.keyPrefix name

def createQueue (now : Nat) (name : Str) : Call Unit := do
  let created ← execute "create_queue"
    (createQueueScript storage.names (storage.keys name).info name now)
  if created = 0 then Act.fail (queueExists name) else pure ()

def removeQueue (name : Str) : Call Unit := do
  let removed ← execute "remove_queue"
    (removeQueueScript storage.names (queueKeyPrefix storage.keyPrefix) name)
  if removed = 0 then Act.fail (queueNotFound name) else pure ()

def listQueues (pre : Str) : Call (List Str) := do
  let queues ← execute "list_queues" (smembers storage.names)
  pure ((queues.filter (pre.isPrefixOf ·)).insertionSort (· ≤ ·))

end CacheQueueStorage

/-! ## The keys are apart -/

theorem isUuidChar_ne {c d : Char} (hc : isUuidChar c = true) (hd : isUuidChar d = false) :
    c ≠ d := by
  rintro rfl
  rw [hc] at hd
  cases hd

namespace Uuid

theorem colon_notMem (id : Uuid) : ':' ∉ id.val := by
  intro h
  exact isUuidChar_ne (id.property.2 _ h) (by decide : isUuidChar ':' = false) rfl

theorem bar_notMem (id : Uuid) : '|' ∉ id.val := by
  intro h
  exact isUuidChar_ne (id.property.2 _ h) (by decide : isUuidChar '|' = false) rfl

/-- A UUID is longer than every other last part of a key. -/
theorem ne_short (id : Uuid) {s : Str} (h : s.length < 36) : id.val ≠ s := by
  intro heq
  rw [← heq, id.property.1] at h
  exact absurd h (by decide)

end Uuid

/-- What a key of the queues is for -/
inductive Slot
  | names
  | info (q : Str)
  | pending (q : Str)
  | processing (q : Str)
  | message (q : Str) (id : Uuid)
  | alive (instanceId : Uuid)
  deriving DecidableEq

namespace Slot

def key (keyPrefix : Str) : Slot → Str
  | names => queueNamesKey keyPrefix
  | info q => (QueueKeys.new keyPrefix q).info
  | pending q => (QueueKeys.new keyPrefix q).pending
  | processing q => (QueueKeys.new keyPrefix q).processing
  | message q id => (QueueKeys.new keyPrefix q).message id.val
  | alive instanceId => heartbeatKey keyPrefix instanceId

/-- The part of the key before the last `:` -/
def stem (keyPrefix : Str) : Slot → Str
  | names => '\x7b' :: keyPrefix ++ ['\x7d', ':', 'o', 'v', ':', 'q', 'u', 'e', 'u', 'e']
  | info q => queueKeyPrefix keyPrefix ++ q
  | pending q => queueKeyPrefix keyPrefix ++ q
  | processing q => queueKeyPrefix keyPrefix ++ q
  | message q _ => queueKeyPrefix keyPrefix ++ q ++ [':', 'm', 's', 'g']
  | alive instanceId => instanceKeyPrefix keyPrefix ++ instanceId.val

/-- The part after it -/
def tail : Slot → Str
  | names => ['n', 'a', 'm', 'e', 's']
  | info _ => ['m', 'e', 't', 'a']
  | pending _ => ['p', 'e', 'n', 'd', 'i', 'n', 'g']
  | processing _ => ['p', 'r', 'o', 'c', 'e', 's', 's', 'i', 'n', 'g']
  | message _ id => id.val
  | alive _ => ['a', 'l', 'i', 'v', 'e']

theorem key_eq (keyPrefix : Str) (slot : Slot) :
    slot.key keyPrefix = slot.stem keyPrefix ++ ':' :: slot.tail := by
  cases slot <;>
    simp [key, stem, tail, queueNamesKey, queueKeyPrefix, QueueKeys.new, QueueKeys.below,
      QueueKeys.message, heartbeatKey, instanceKeyPrefix]

theorem colon_notMem_tail (slot : Slot) : ':' ∉ slot.tail := by
  cases slot with
  | message q id => exact id.colon_notMem
  | _ => simp only [tail]; decide

theorem key_injective (keyPrefix : Str) : Function.Injective (key keyPrefix) := by
  intro a b h
  rw [key_eq, key_eq] at h
  obtain ⟨hstem, htail⟩ := append_cons_inj_of_notMem a.colon_notMem_tail b.colon_notMem_tail h
  have hlong (c : Uuid) {t : Str} (ht : t.length < 36) (heq : c.val = t) : False :=
    c.ne_short ht heq
  cases a with
  | names =>
      cases b with
      | names => rfl
      | message q id => exact (hlong id (by simp [tail]) htail.symm).elim
      | _ => exact absurd htail (by simp [tail])
  | info q =>
      cases b with
      | info q' => rw [List.append_cancel_left hstem]
      | message q' id => exact (hlong id (by simp [tail]) htail.symm).elim
      | _ => exact absurd htail (by simp [tail])
  | pending q =>
      cases b with
      | pending q' => rw [List.append_cancel_left hstem]
      | message q' id => exact (hlong id (by simp [tail]) htail.symm).elim
      | _ => exact absurd htail (by simp [tail])
  | processing q =>
      cases b with
      | processing q' => rw [List.append_cancel_left hstem]
      | message q' id => exact (hlong id (by simp [tail]) htail.symm).elim
      | _ => exact absurd htail (by simp [tail])
  | message q id =>
      cases b with
      | message q' id' =>
          rw [List.append_cancel_left (List.append_cancel_right hstem), Subtype.ext htail]
      | _ => exact (hlong id (by simp [tail]) htail).elim
  | alive i =>
      cases b with
      | alive i' => rw [Subtype.ext (List.append_cancel_left hstem)]
      | message q' id => exact (hlong id (by simp [tail]) htail.symm).elim
      | _ => exact absurd htail (by simp [tail])

end Slot

end OpenViking.Queuefs
