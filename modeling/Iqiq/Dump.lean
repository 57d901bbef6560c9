import Mathlib.Data.List.Basic

namespace Iqiq.Dump

/-- The names of `sv_ciq_ota_tag_table`. -/
def tagTable : List String :=
  ["CollectionProfiles", "SchedulerProfile", "UploadSchedule", "MetricsBufferProfile",
    "MetricBufferItem", "PackageProfiles", "PackageProfile", "SnapshotStartList",
    "SnapshotStartItem", "SnapshotEndList", "SnapshotEndItem", "AggregateList", "AggregateItem",
    "ScriptFSM", "ScriptState", "StartAction", "Transitions", "Transition", "ParameterMap",
    "Param", "Connections", "Connection", "DefaultSettings"]

/-- The names of `sv_ciq_ota_attr_table`. -/
def attrTable : List String :=
  ["RetryCount", "RetryTimer", "UploadDays", "UploadPeriod", "StartTime", "Duration",
    "HoldoffTime", "MetricID", "BufferSize", "SamplingRate", "BufferPriority", "StartTrigger",
    "EndTrigger", "AbortTrigger", "ArchiveBufferPriority", "ReservedArchiveSpace",
    "UploadPriority", "NumBefore", "NumAfter", "NumType", "Offset", "Size",
    "CauseImmediateUpload", "MaxWaitForCount", "UploadReasons", "UploadUrl", "PackageName",
    "ScriptStateId", "ActionType", "ActionKey", "ActionInterval", "ActionTimer",
    "TransitionEvent", "TransitionNextStateId", "MinValue", "BucketSize", "NumBuckets",
    "TransitionLoopCount", "TransitionLoopStateId", "AddUniqueKey", "ActionTimerMin",
    "ActionTimerMax", "TransitionLoopCountMin", "TransitionLoopCountMax",
    "DeleteAfterFailureCount", "MaxConnectCount", "DisableExternalMetrics", "Flags", "DiscardIf",
    "Version", "Compression", "Name", "MetricCount", "AvgMetricSize", "Value", "PackageTimeout",
    "MaxPackageSize", "SnapshotTriggers", "InactivityTimeout", "Reserved_x40_ExtI0",
    "Reserved_x41_ExtI1", "Reserved_x42_ExtI2", "Reserved_x43_Pi", "Reserved_x44_LiteralC",
    "Proxy", "KeepFirst", "KeepLast", "ArchiveFullHeadroom", "NetworkAvailableRetryCount",
    "ProxyAuthentication", "BridgePackageTimeout", "Anonymous"]

structure TagName where
  xmlName : String
  mem : xmlName ∈ tagTable

structure AttributeName where
  xmlName : String
  mem : xmlName ∈ attrTable

structure Attribute where
  name : AttributeName
  xmlValue : List Char

/-- `TAB_WIDTH`. -/
def tabWidth : Int := 4

structure ParseContext where
  indent : Int

/-- `indent`: the spaces it prints, none for a negative `n`. -/
def indent (n : Int) : List Char :=
  List.replicate n.toNat ' '

/-- The loop over `attrs`, from index `i` on. -/
def printAttributes (startCol : Int) : Nat → List Attribute → List Char
  | _, [] => []
  | i, attr :: attrs =>
      (if i = 0 then indent 1 else '\n' :: indent startCol) ++
        (attr.name.xmlName.toList ++
          '=' :: '"' :: (attr.xmlValue ++ '"' :: printAttributes startCol (i + 1) attrs))

/-- `start_element`: what it prints, and the context afterwards. -/
def startElement (ctx : ParseContext) (localName : TagName) (attrs : List Attribute)
    (empty : Bool) : List Char × ParseContext :=
  let startCol := ctx.indent + localName.xmlName.length + 2
  let front := indent ctx.indent ++
    '<' :: (localName.xmlName.toList ++ printAttributes startCol 0 attrs)
  if empty then (front ++ [' ', '/', '>', '\n'], ctx)
  else (front ++ ['>', '\n'], { ctx with indent := ctx.indent + tabWidth })

def endElement (ctx : ParseContext) (localName : TagName) (empty : Bool) :
    List Char × ParseContext :=
  if empty then ([], ctx)
  else
    let ctx := { ctx with indent := ctx.indent - tabWidth }
    (indent ctx.indent ++ '<' :: '/' :: (localName.xmlName.toList ++ ['>', '\n']), ctx)

/-- The loop of `cdata`, over the characters of the UTF-8 text; the flag is
`new_line`. -/
def printChars (col : Int) : Bool → List Char → List Char
  | _, [] => []
  | newLine, c :: rest =>
      (if newLine ∧ c ≠ '\n' then indent col else []) ++
        c :: printChars col (c = '\n') rest

def cdata (ctx : ParseContext) (ch : List Char) (start length : Nat) :
    List Char × ParseContext :=
  (indent ctx.indent ++ printChars ctx.indent false ((ch.drop start).take length), ctx)

inductive Callback where
  | startElement (localName : TagName) (attrs : List Attribute) (empty : Bool)
  | endElement (localName : TagName) (empty : Bool)
  | cdata (ch : List Char) (start length : Nat)

def Callback.call (ctx : ParseContext) : Callback → List Char × ParseContext
  | .startElement localName attrs empty => Dump.startElement ctx localName attrs empty
  | .endElement localName empty => Dump.endElement ctx localName empty
  | .cdata ch start length => Dump.cdata ctx ch start length

/-- One callback after the other. -/
def deliver : ParseContext → List Callback → List Char × ParseContext
  | ctx, [] => ([], ctx)
  | ctx, callback :: more =>
      let (printed, ctx) := callback.call ctx
      let (rest, ctx) := deliver ctx more
      (printed ++ rest, ctx)

/-- The arguments of `cdata`; they stay inside the array. -/
structure Slice where
  ch : List Char
  start : Nat
  length : Nat
  fits : start + length ≤ ch.length

def Slice.text (s : Slice) : List Char :=
  (s.ch.drop s.start).take s.length

/-- What an element contains. An element whose `empty` flag is set has no content. -/
inductive Forest where
  | nil
  | text (s : Slice) (rest : Forest)
  | empty (localName : TagName) (attrs : List Attribute) (rest : Forest)
  | element (localName : TagName) (attrs : List Attribute) (inner rest : Forest)

/-- The callbacks the parser makes for a forest. -/
def Forest.callbacks : Forest → List Callback
  | .nil => []
  | .text s rest => .cdata s.ch s.start s.length :: rest.callbacks
  | .empty n attrs rest => .startElement n attrs true :: .endElement n true :: rest.callbacks
  | .element n attrs inner rest =>
      .startElement n attrs false :: (inner.callbacks ++ .endElement n false :: rest.callbacks)

/-- The element of a document; without content when its `empty` flag is set. -/
structure Root where
  localName : TagName
  attrs : List Attribute
  inner : Option Forest

def Root.forest (root : Root) : Forest :=
  match root.inner with
  | none => .empty root.localName root.attrs .nil
  | some inner => .element root.localName root.attrs inner .nil

/-- What `parse` prints for the document. -/
def dump (root : Root) : List Char :=
  (deliver ⟨0⟩ root.forest.callbacks).1

/-- What is printed for a forest at indentation `col`. -/
def printed (col : Int) : Forest → List Char
  | .nil => []
  | .text s rest => indent col ++ (printChars col false s.text ++ printed col rest)
  | .empty n attrs rest =>
      indent col ++ '<' :: (n.xmlName.toList ++
        (printAttributes (col + n.xmlName.length + 2) 0 attrs ++
          ' ' :: '/' :: '>' :: '\n' :: printed col rest))
  | .element n attrs inner rest =>
      indent col ++ '<' :: (n.xmlName.toList ++
        (printAttributes (col + n.xmlName.length + 2) 0 attrs ++
          '>' :: '\n' :: (printed (col + tabWidth) inner ++ (indent col ++
            '<' :: '/' :: (n.xmlName.toList ++ '>' :: '\n' :: printed col rest)))))

theorem deliver_callbacks (f : Forest) (col : Int) (more : List Callback) :
    deliver ⟨col⟩ (f.callbacks ++ more) =
      (printed col f ++ (deliver ⟨col⟩ more).1, (deliver ⟨col⟩ more).2) := by
  induction f generalizing col more with
  | nil => simp [Forest.callbacks, printed]
  | text s rest ih =>
      simp [Forest.callbacks, deliver, Callback.call, cdata, printed, ih, Slice.text]
  | empty n attrs rest ih =>
      simp [Forest.callbacks, deliver, Callback.call, startElement, endElement, printed, ih]
  | element n attrs inner rest ihInner ih =>
      have hback : col + tabWidth - tabWidth = col := by omega
      simp [Forest.callbacks, deliver, Callback.call, startElement, endElement, printed,
        ihInner, ih, hback]

theorem dump_eq_printed (root : Root) : dump root = printed 0 root.forest := by
  have h := deliver_callbacks root.forest 0 []
  rw [List.append_nil] at h
  rw [dump, h]
  simp [deliver]

end Iqiq.Dump
