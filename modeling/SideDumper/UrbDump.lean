import SideDumper.Ohci

/-!
# The dump of a captured URB

`DumpUrb` and the functions below it write text with `sprintf`. A dump is a
list of items, each a piece of a format string or a conversion with the place
its value comes from, so that one definition has the text that is written and
the bytes of the transfer buffer copy that are read for it. `test` is a byte
that is read for a branch and not printed.

The bytes of the copy are a function of the offset. What lies behind the
bytes that were captured, or at the addresses that a `NULL` copy leads to, is
some byte too.
-/

/-- The bytes at and behind the address of the copy. -/
abbrev Bytes := ℕ → UInt8

/-- Where a printed value comes from: a little-endian field of the copy, or
elsewhere. -/
inductive Val
  | field (off size : ℕ)
  | num (n : ℕ)
deriving DecidableEq, Repr

/-- **A piece of a dump**: text, `%0<width>x`, `%0<width>u`, `%c` of a byte
that `isprint` accepts and of a dot for another, and a byte read for a
branch. -/
inductive Item
  | lit (s : String)
  | hex (width : ℕ) (v : Val)
  | dec (width : ℕ) (v : Val)
  | printable (off : ℕ)
  | test (off : ℕ)
deriving DecidableEq, Repr

/-- The value of a field. -/
def fieldValue (buf : Bytes) (off : ℕ) : ℕ → ℕ
  | 0 => 0
  | size + 1 => (buf off).toNat + 256 * fieldValue buf (off + 1) size

/-- The value that is printed. -/
def Val.value (buf : Bytes) : Val → ℕ
  | .field off size => fieldValue buf off size
  | .num n => n

/-- The offsets that are read for a value. -/
def Val.reads : Val → List ℕ
  | .field off size => (List.range size).map (off + ·)
  | .num _ => []

/-- `isprint` of the kernel, whose table is for Latin-1. -/
def isprint (c : UInt8) : Bool := (0x20 ≤ c && c ≤ 0x7e) || 0xa0 ≤ c

/-- Padding with zeros on the left. -/
def padZero (width : ℕ) (s : List Char) : List Char := List.replicate (width - s.length) '0' ++ s

/-- The text of an item. -/
def Item.text (buf : Bytes) : Item → List Char
  | .lit s => s.toList
  | .hex width v => padZero width (Nat.toDigits 16 (v.value buf))
  | .dec width v => padZero width (Nat.toDigits 10 (v.value buf))
  | .printable off => [if isprint (buf off) then Char.ofNat (buf off).toNat else '.']
  | .test _ => []

/-- The offsets that are read for an item. -/
def Item.reads : Item → List ℕ
  | .lit _ => []
  | .hex _ v | .dec _ v => v.reads
  | .printable off | .test off => [off]

/-- The text of a dump. -/
def dumpText (buf : Bytes) (xs : List Item) : List Char := xs.flatMap (Item.text buf)

/-- The offsets that are read for a dump. -/
def dumpReads (xs : List Item) : List ℕ := xs.flatMap Item.reads

/-! ## What was captured -/

/-- `SideDumper_TMiniUrb`, with the setup packet as bytes. -/
structure MiniUrb where
  uUrbNumber : ℕ
  devnum : ℕ
  pipe : Pipe
  transferBufferLength : ℕ
  actualLength : ℕ
  setupPacket : Bytes

/-- `SideDumper_TDeviceSettings`, as far as it decides what is dumped. -/
structure DeviceSettings where
  uOutLimit : ℕ
  uInLimit : ℕ

namespace MiniUrb

/-- The fields of the `devrequest` in the setup packet. -/
def requesttype (m : MiniUrb) : ℕ := fieldValue m.setupPacket 0 1
def request (m : MiniUrb) : ℕ := fieldValue m.setupPacket 1 1
def value (m : MiniUrb) : ℕ := fieldValue m.setupPacket 2 2
def index (m : MiniUrb) : ℕ := fieldValue m.setupPacket 4 2
def length (m : MiniUrb) : ℕ := fieldValue m.setupPacket 6 2

/-- The bytes of the transfer buffer that were to be captured. -/
def uTbBytes (m : MiniUrb) : ℕ := if m.pipe.out then m.transferBufferLength else m.actualLength

end MiniUrb

/-- `PipeTypeStr`. -/
def pipeTypeStr : PipeType → String
  | .iso => "iso"
  | .int => "intr"
  | .ctrl => "ctrl"
  | .bulk => "bulk"

/-- `TestForStdDescriptor`. -/
def testForStdDescriptor (m : MiniUrb) : Bool :=
  decide (m.pipe.type = .ctrl) && m.requesttype &&& 0x60 == 0 && m.request == 6

/-- `GetStringIndex`. -/
def getStringIndex (m : MiniUrb) : ℕ := m.value &&& 0xff

/-! ## Lines -/

/-- The header of every line, with `KERN_DEBUG` in front. -/
def pszHeader : String := "<7>side_dumper|"

/-- `"%s<label>..\n"`. -/
def line (label : String) (xs : List Item) : List Item :=
  [Item.lit pszHeader, Item.lit label] ++ xs ++ [Item.lit "\n"]

/-- `%02xh` of a byte. -/
def hexByte (label : String) (off : ℕ) : List Item := line label [.hex 2 (.field off 1), .lit "h"]

/-- `%02xh (%d)` of a byte. -/
def hexDecByte (label : String) (off : ℕ) : List Item :=
  line label [.hex 2 (.field off 1), .lit "h (", .dec 1 (.field off 1), .lit ")"]

/-- `%04xh` of a field of two bytes. -/
def hexWord (label : String) (off : ℕ) : List Item := line label [.hex 4 (.field off 2), .lit "h"]

/-- `%04xh (%d)` of a field of two bytes. -/
def hexDecWord (label : String) (off : ℕ) : List Item :=
  line label [.hex 4 (.field off 2), .lit "h (", .dec 1 (.field off 2), .lit ")"]

/-- The line that says that a descriptor is not complete. -/
def shortTransfer (uDescLen off : ℕ) : List Item :=
  line "    short transfer (" [.dec 1 (.num uDescLen), .lit "/", .dec 1 (.field off 1),
    .lit " bytes)"]

/-- The line for a descriptor of another type. -/
def unknownDescriptor : List Item :=
  line "    unknown descriptor type " [.hex 1 (.field 1 1), .lit "h, ", .dec 1 (.field 0 1),
    .lit " bytes"]

/-- The line at the end of a descriptor. -/
def endOfDescriptor : List Item := line "    --------------------------" []

/-! ## Level 5 -/

/-- `DumpRawBuf`, with its header in pieces. -/
def dumpRawBuf (header : List Item) (uBytes : ℕ) : List Item :=
  if uBytes = 0 then []
  else header ++ [Item.lit " [ "] ++ (List.range uBytes).flatMap (fun i =>
    (if i % 256 = 0 ∧ i ≠ 0 then [Item.lit "]\n"] ++ header ++ [Item.lit " [ "] else [])
      ++ [Item.hex 2 (.field i 1), Item.lit " "]) ++ [Item.lit "]\n"]

/-! ## Level 4 -/

/-- The names of the device classes. -/
def deviceClass (c : UInt8) : String :=
  if c = 0 then "no class\n" else if c = 1 then "USB_CLASS_AUDIO\n"
  else if c = 2 then "USB_CLASS_COMM\n" else if c = 3 then "USB_CLASS_HID\n"
  else if c = 7 then "USB_CLASS_PRINTER\n" else if c = 8 then "USB_CLASS_MASS_STORAGE\n"
  else if c = 9 then "USB_CLASS_HUB\n" else if c = 0xff then "USB_CLASS_VENDOR_SPEC\n"
  else "???\n"

/-- What the dumpers of descriptors have in common: a title, the fields of a
descriptor at `off` when `size` bytes are left, and a line at the end. -/
def descriptor (title : String) (uDescLen size off : ℕ) (fields : List Item) : List Item :=
  line title [] ++ (if uDescLen < size then shortTransfer uDescLen off else fields)
    ++ endOfDescriptor

/-- `DumpDD`. -/
def dumpDD (buf : Bytes) (uDescLen : ℕ) : List Item :=
  descriptor "    -- device descriptor -----" uDescLen 18 0
    (hexDecByte "    bLength            = " 0
      ++ hexByte "    bDescriptorType    = " 1
      ++ hexWord "    bcdUSB             = " 2
      ++ [Item.lit pszHeader, Item.lit "    bDeviceClass       = ", Item.hex 2 (.field 4 1),
        Item.lit "h ", Item.test 4, Item.lit (deviceClass (buf 4))]
      ++ hexByte "    bDeviceSubClass    = " 5
      ++ hexByte "    bDeviceProtocol    = " 6
      ++ hexDecByte "    bMaxPacketSize0    = " 7
      ++ hexWord "    idVendor           = " 8
      ++ hexWord "    idProduct          = " 10
      ++ hexWord "    bcdDevice          = " 12
      ++ hexDecByte "    iManufacturer      = " 14
      ++ hexDecByte "    iProduct           = " 15
      ++ hexDecByte "    iSerialNumber      = " 16
      ++ hexDecByte "    bNumConfigurations = " 17)

/-- The fields of the interface descriptor at `off`. -/
def idFields (off : ℕ) : List Item :=
  hexByte "    bLength            = " off
    ++ hexByte "    bDescriptorType    = " (off + 1)
    ++ hexDecByte "    bInterfaceNumber   = " (off + 2)
    ++ hexByte "    bAlternateSetting  = " (off + 3)
    ++ hexDecByte "    bNumEndpoints      = " (off + 4)
    ++ hexByte "    bInterfaceClass    = " (off + 5)
    ++ hexByte "    bInterfaceSubClass = " (off + 6)
    ++ hexByte "    bInterfaceProtocol = " (off + 7)
    ++ hexDecByte "    iInterface         = " (off + 8)

/-- The fields of the endpoint descriptor at `off`, with those of audio endpoints
when it has their length. -/
def edFields (bLength : UInt8) (off : ℕ) : List Item :=
  hexByte "    bLength          = " off
    ++ hexByte "    bDescriptorType  = " (off + 1)
    ++ hexByte "    bEndpointAddress = " (off + 2)
    ++ hexByte "    bmAttributes     = " (off + 3)
    ++ hexDecWord "    wMaxPacketSize   = " (off + 4)
    ++ hexDecByte "    bInterval        = " (off + 6)
    ++ [Item.test off]
    ++ (if bLength = 9 then
        line "    bRefresh         = " [.hex 4 (.field (off + 7) 1), .lit "h"]
          ++ hexByte "    bSynchAddress    = " (off + 8)
      else [])

/-- `DumpID` of the descriptor at `off`. -/
def dumpID (off uDescLen : ℕ) : List Item :=
  descriptor "    -- interface descriptor --" uDescLen 9 off (idFields off)

/-- `DumpED` of the descriptor at `off`. -/
def dumpED (buf : Bytes) (off uDescLen : ℕ) : List Item :=
  descriptor "    -- endpoint descriptor ---" uDescLen 7 off (edFields (buf off) off)

/-- One pass of the loop of `DumpCD`, for the descriptor at `off`. The line
for another type prints the header of the config descriptor. -/
def dumpCdPass (buf : Bytes) (off pEnd : ℕ) : List Item :=
  [Item.test (off + 1)]
    ++ (if buf (off + 1) = 1 ∨ buf (off + 1) = 2 ∨ buf (off + 1) = 3 then []
      else if buf (off + 1) = 4 then dumpID off (pEnd - off)
      else if buf (off + 1) = 5 then dumpED buf off (pEnd - off)
      else unknownDescriptor)
    ++ [Item.test off]

/-- The loop of `DumpCD`, as far as its first `passes` passes. -/
def dumpCdLoop (buf : Bytes) (pEnd : ℕ) : ℕ → ℕ → List Item
  | 0, _ => []
  | passes + 1, off =>
    if off < pEnd then
      dumpCdPass buf off pEnd ++ dumpCdLoop buf pEnd passes (off + (buf off).toNat)
    else []

/-- `DumpCD`, as far as the first `passes` passes of its loop. -/
def dumpCD (passes : ℕ) (buf : Bytes) (uDescLen : ℕ) : List Item :=
  descriptor "    -- config descriptor -----" uDescLen 9 0
      (hexByte "    bLength             = " 0
        ++ hexByte "    bDescriptorType     = " 1
        ++ hexDecWord "    wTotalLength        = " 2
        ++ hexByte "    bNumInterfaces      = " 4
        ++ hexByte "    bConfigurationValue = " 5
        ++ hexByte "    iConfiguration      = " 6
        ++ hexByte "    bmAttributes        = " 7
        ++ hexDecByte "    MaxPower            = " 8)
    ++ (if 9 < uDescLen then
        [Item.test 0, Item.test 2, Item.test 3]
          ++ dumpCdLoop buf (min uDescLen (fieldValue buf 2 2)) passes (buf 0).toNat
      else [])

/-- How many characters of a string descriptor are printed. For a `bLength`
below 2 the subtraction wraps around, and so does the address of the end,
which lies before the first character then. -/
def sdChars (buf : Bytes) (uDescLen : ℕ) : ℕ := (min (buf 0).toNat uDescLen - 2) / 2

/-- `DumpSD`. -/
def dumpSD (buf : Bytes) (uDescLen uIndex : ℕ) : List Item :=
  line "    -- string descriptor -----" []
    ++ (if uDescLen < 2 then shortTransfer uDescLen 0
      else [Item.test 0]
        ++ (if uDescLen < (buf 0).toNat then shortTransfer uDescLen 0
          else [Item.test 0] ++ hexDecByte "    bLength         = " 0
            ++ hexByte "    bDescriptorType = " 1
            ++ (if uIndex = 0 then line "    wData           = [tbd]" []
              else [Item.lit pszHeader, Item.lit "    wData[]         = '"]
                ++ (List.range (sdChars buf uDescLen)).map (fun i => Item.printable (2 + 2 * i))
                ++ [Item.lit "'\n"])))
    ++ endOfDescriptor

/-! ## Level 3 -/

/-- `DumpSPBytes`. -/
def dumpSPBytes (m : MiniUrb) : List Item :=
  line "  sp = [ " [.hex 2 (.num m.requesttype), .lit " ", .hex 2 (.num m.request), .lit " ",
    .hex 4 (.num m.value), .lit " ", .hex 4 (.num m.index), .lit " ", .hex 4 (.num m.length),
    .lit " ]"]

/-- The names of the descriptor types. -/
def descriptorType (t : ℕ) : String :=
  if t = 1 then "(USB_DT_DEVICE), " else if t = 2 then "(USB_DT_CONFIG), "
  else if t = 3 then "(USB_DT_STRING), " else if t = 4 then "(USB_DT_INTERFACE), "
  else if t = 5 then "(USB_DT_ENDPOINT), " else "(USB_DT_?), "

/-- The standard requests. -/
def stdRequest (m : MiniUrb) : List Item :=
  if m.request = 0 then [.lit "USB_REQ_GET_STATUS(@", .dec 1 (.num m.index), .lit "), "]
  else if m.request = 1 then
    [.lit "USB_REQ_CLEAR_FEATURE(", .dec 1 (.num m.value), .lit "@", .dec 1 (.num m.index),
      .lit "), "]
  else if m.request = 3 then
    [.lit "USB_REQ_SET_FEATURE(", .dec 1 (.num m.value), .lit "@", .dec 1 (.num m.index),
      .lit "), "]
  else if m.request = 5 then [.lit "USB_REQ_SET_ADDRESS(@", .dec 1 (.num m.value), .lit "), "]
  else if m.request = 6 then
    [.lit "USB_REQ_GET_DESCRIPTOR", .lit (descriptorType (m.value >>> 8))]
  else if m.request = 7 then
    [.lit "USB_REQ_SET_DESCRIPTOR", .lit (descriptorType (m.value >>> 8))]
  else if m.request = 8 then [.lit "USB_REQ_GET_CONFIGURATION, "]
  else if m.request = 9 then
    [.lit "USB_REQ_SET_CONFIGURATION(", .dec 1 (.num m.value), .lit "), "]
  else if m.request = 10 then [.lit "USB_REQ_GET_INTERFACE(@", .dec 1 (.num m.index), .lit "), "]
  else if m.request = 11 then
    [.lit "USB_REQ_SET_INTERFACE(", .dec 1 (.num m.value), .lit "@", .dec 1 (.num m.index),
      .lit "), "]
  else if m.request = 12 then [.lit "USB_REQ_SYNCH_FRAME(@", .dec 1 (.num m.index), .lit "), "]
  else [.lit "USB_REQ_?, "]

/-- The names of the recipients. -/
def recipient (r : ℕ) : String :=
  if r = 0 then "USB_RECIP_DEVICE\n" else if r = 1 then "USB_RECIP_INTERFACE\n"
  else if r = 2 then "USB_RECIP_ENDPOINT\n" else if r = 3 then "USB_RECIP_OTHER\n"
  else "USB_RECIP_?\n"

/-- `DumpSPSettings`. -/
def dumpSPSettings (m : MiniUrb) : List Item :=
  [Item.lit pszHeader, Item.lit "    ",
      Item.lit (if m.requesttype &&& 0x80 = 0 then "h->d" else "h<-d"), Item.lit ", "]
    ++ (if m.requesttype &&& 0x60 = 0 then stdRequest m
      else if m.requesttype &&& 0x60 = 0x20 then [Item.lit "USB_TYPE_CLASS, "]
      else if m.requesttype &&& 0x60 = 0x40 then [Item.lit "USB_TYPE_VENDOR, "]
      else [Item.lit "USB_TYPE_?, "])
    ++ [Item.lit (recipient (m.requesttype &&& 0x1f))]

/-- How many bytes `DumpTB` dumps. -/
def uTbLen (s : DeviceSettings) (m : MiniUrb) : ℕ :=
  if m.pipe.out then min s.uOutLimit m.transferBufferLength else min s.uInLimit m.actualLength

/-- `DumpTB`. -/
def dumpTB (s : DeviceSettings) (m : MiniUrb) : List Item :=
  dumpRawBuf [.lit pszHeader, .lit "  tb ="] (uTbLen s m)

/-- `DumpStdDescriptors`. -/
def dumpStdDescriptors (passes : ℕ) (m : MiniUrb) (buf : Bytes) : List Item :=
  if testForStdDescriptor m then
    [Item.test 1]
      ++ (if buf 1 = 1 then dumpDD buf m.uTbBytes
        else if buf 1 = 2 then dumpCD passes buf m.uTbBytes
        else if buf 1 = 3 then dumpSD buf m.uTbBytes (getStringIndex m)
        else if buf 1 = 4 ∨ buf 1 = 5 then []
        else unknownDescriptor)
  else []

/-! ## Level 2 -/

/-- The first line of a dump. -/
def urbLine (m : MiniUrb) : List Item :=
  line " urb_" [.dec 4 (.num m.uUrbNumber), .lit ": device #", .dec 1 (.num m.devnum), .lit ", ",
    .lit (pipeTypeStr m.pipe.type), .lit "_", .dec 1 (.num m.pipe.endpoint),
    .lit (if m.pipe.out then " >, " else " <, "), .dec 1 (.num m.uTbBytes), .lit " bytes."]

/-- **`DumpUrb`**, as far as the first `passes` passes of the loop over the
descriptors behind a config descriptor. -/
def dumpUrb (passes : ℕ) (s : DeviceSettings) (m : MiniUrb) (buf : Bytes) : List Item :=
  urbLine m ++ (if m.pipe.type = .ctrl then dumpSPBytes m ++ dumpSPSettings m else [])
    ++ dumpTB s m ++ dumpStdDescriptors passes m buf
