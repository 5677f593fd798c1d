/-
This file models the option tables of `utils/nsoption.c`: how they are checked, written and read.
-/

import Mathlib.Data.List.TakeWhile
import Neosurf.Construction.Bytes
import Neosurf.ToMathlib.ChangeFirst

namespace Neosurf

/-- One sign may stand before a number. -/
def splitSign : Bytes → Bool × Bytes
  | [] => (false, [])
  | c :: rest =>
      if c = chr '-' then (true, rest)
      else if c = chr '+' then (false, rest)
      else (false, c :: rest)

/-- The byte is a digit of numbers in this base. -/
def isDigitOf (base : Nat) (c : Byte) : Bool := (hexToValue c).any fun d => d.toNat < base

/-- The value of the digits at the start of a text. -/
def readDigits (base : Nat) (text : Bytes) : Nat :=
  (text.takeWhile (isDigitOf base)).foldl
    (fun value c => base * value + ((hexToValue c).getD 0).toNat) 0

/-- The number is saturated as an `unsigned long`, and then negated in it. -/
def unsignedLong (negative : Bool) (size : Nat) : Nat :=
  if 2 ^ 64 ≤ size then 2 ^ 64 - 1
  else if negative then (2 ^ 64 - size) % 2 ^ 64
  else size

/-- The characters before the digits of a number tell its base. -/
def splitBase : Bytes → Nat × Bytes
  | [] => (10, [])
  | c :: rest =>
      if c = chr '0' then
        match rest with
        | x :: d :: _ =>
            if (x = chr 'x' ∨ x = chr 'X') ∧ isDigitOf 16 d then (16, rest.tail) else (8, c :: rest)
        | _ => (8, c :: rest)
      else (10, c :: rest)

/-- This is `strtoul` with the base taken from the text. -/
def strtoul (s : Bytes) : Nat :=
  let (negative, number) := splitSign (s.dropWhile isSpace)
  let (base, digits) := splitBase number
  unsignedLong negative (readDigits base digits)

/-- The prefix `0x` may stand before hexadecimal digits. -/
def skipHexPrefix : Bytes → Bytes
  | c :: x :: rest => if c = chr '0' ∧ (x = chr 'x' ∨ x = chr 'X') then rest else c :: x :: rest
  | text => text

/-- This is `sscanf` with the conversion `%x`, with `none` when it converts nothing. -/
def sscanfHex (s : Bytes) : Option UInt32 :=
  let (negative, number) := splitSign (s.dropWhile isSpace)
  let digits := skipHexPrefix number
  if digits.takeWhile (isDigitOf 16) = [] then none
  else some (unsignedLong negative (readDigits 16 digits)).toUInt32

/-- This is the conversion `%06x`. -/
def printHex6 (n : Nat) : Bytes := (List.leftpad 6 '0' (Nat.toDigits 16 n)).map chr

namespace Nsoption

/-- These are the bytes of a string literal, as a compiler stores it. -/
def literal (text : String) : Bytes := text.toByteArray.data.toList

/-- A string option is no empty string. -/
structure OptionText where
  bytes : Bytes
  filled : bytes ≠ []
  solid : 0 ∉ bytes
  deriving DecidableEq

/-- The string is copied, but an empty one is not stored. -/
def OptionText.strdup? (value : Bytes) : Option OptionText :=
  if filled : cstr value = [] then none
  else some ⟨cstr value, filled, fun inside => by simpa using List.mem_takeWhile_imp inside⟩

/-- This is the union `value` with the type that says how it is read. -/
inductive OptionValue where
  | bool (b : Bool)
  | integer (i : Int32)
  | uint (u : UInt32)
  | string (s : Option OptionText)
  | colour (c : UInt32)
  deriving DecidableEq

/-- This is `nsoption_type_e`. -/
inductive NsoptionType where
  | bool | integer | uint | string | colour
  deriving DecidableEq

def OptionValue.type : OptionValue → NsoptionType
  | bool _ => .bool
  | integer _ => .integer
  | uint _ => .uint
  | string _ => .string
  | colour _ => .colour

/-- This is `nsoption_s`, whose key length nothing here reads. -/
structure NsoptionS where
  key : Bytes
  value : OptionValue
  deriving DecidableEq

def NSOPTION_BOOL (name : String) (default : Bool) : NsoptionS := ⟨literal name, .bool default⟩

def NSOPTION_STRING (name : String) (default : Option String) : NsoptionS :=
  ⟨literal name, .string (default.bind fun text => OptionText.strdup? (literal text))⟩

def NSOPTION_INTEGER (name : String) (default : Int32) : NsoptionS :=
  ⟨literal name, .integer default⟩

def NSOPTION_UINT (name : String) (default : UInt32) : NsoptionS := ⟨literal name, .uint default⟩

def NSOPTION_COLOUR (name : String) (default : UInt32) : NsoptionS :=
  ⟨literal name, .colour default⟩

/-- These are the options of `desktop/options.h` before the system colours. -/
def coreOptions : List NsoptionS :=
  [ NSOPTION_BOOL "http_proxy" false,
    NSOPTION_STRING "http_proxy_host" none,
    NSOPTION_INTEGER "http_proxy_port" 8080,
    NSOPTION_INTEGER "http_proxy_auth" 0,
    NSOPTION_STRING "http_proxy_auth_user" none,
    NSOPTION_STRING "http_proxy_auth_pass" none,
    NSOPTION_STRING "http_proxy_noproxy" (some "localhost"),
    NSOPTION_INTEGER "treeview_font_size" 110,
    NSOPTION_INTEGER "font_size" 128,
    NSOPTION_INTEGER "font_min_size" 85,
    NSOPTION_STRING "font_sans" none,
    NSOPTION_STRING "font_serif" none,
    NSOPTION_STRING "font_mono" none,
    NSOPTION_STRING "font_cursive" none,
    NSOPTION_STRING "font_fantasy" none,
    NSOPTION_STRING "accept_language" none,
    NSOPTION_STRING "accept_charset" none,
    NSOPTION_INTEGER "memory_cache_size" (12 * 1024 * 1024),
    NSOPTION_STRING "disc_cache_path" none,
    NSOPTION_UINT "disc_cache_size" (1024 * 1024 * 1024),
    NSOPTION_INTEGER "disc_cache_age" 28,
    NSOPTION_BOOL "block_advertisements" false,
    NSOPTION_BOOL "do_not_track" true,
    NSOPTION_BOOL "send_referer" true,
    NSOPTION_BOOL "foreground_images" true,
    NSOPTION_BOOL "background_images" true,
    NSOPTION_BOOL "animate_images" true,
    NSOPTION_BOOL "enable_javascript" true,
    NSOPTION_INTEGER "script_timeout" 10,
    NSOPTION_INTEGER "expire_url" 28,
    NSOPTION_INTEGER "font_default" 0,
    NSOPTION_STRING "ca_bundle" none,
    NSOPTION_STRING "ca_path" none,
    NSOPTION_STRING "cookie_file" none,
    NSOPTION_STRING "cookie_jar" none,
    NSOPTION_STRING "homepage_url" none,
    NSOPTION_BOOL "search_url_bar" false,
    NSOPTION_INTEGER "search_provider" 0,
    NSOPTION_BOOL "url_suggestion" true,
    NSOPTION_INTEGER "window_x" 0,
    NSOPTION_INTEGER "window_y" 0,
    NSOPTION_INTEGER "window_width" 0,
    NSOPTION_INTEGER "window_height" 0,
    NSOPTION_INTEGER "toolbar_status_size" 6667,
    NSOPTION_INTEGER "scale" 100,
    NSOPTION_BOOL "incremental_reflow" true,
    NSOPTION_UINT "min_reflow_period" 25,
    NSOPTION_BOOL "core_select_menu" false,
    NSOPTION_BOOL "display_decoded_idn" false,
    NSOPTION_INTEGER "max_fetchers" 24,
    NSOPTION_INTEGER "max_fetchers_per_host" 5,
    NSOPTION_INTEGER "max_cached_fetch_handles" 6,
    NSOPTION_UINT "max_retried_fetches" 1,
    NSOPTION_UINT "curl_fetch_timeout" 30,
    NSOPTION_BOOL "suppress_curl_debug" true,
    NSOPTION_BOOL "target_blank" true,
    NSOPTION_BOOL "button_2_tab" true,
    NSOPTION_INTEGER "margin_top" 10,
    NSOPTION_INTEGER "margin_bottom" 10,
    NSOPTION_INTEGER "margin_left" 10,
    NSOPTION_INTEGER "margin_right" 10,
    NSOPTION_INTEGER "export_scale" 70,
    NSOPTION_BOOL "suppress_images" false,
    NSOPTION_BOOL "remove_backgrounds" false,
    NSOPTION_BOOL "enable_loosening" true,
    NSOPTION_BOOL "enable_PDF_compression" true,
    NSOPTION_BOOL "enable_PDF_password" false,
    NSOPTION_BOOL "prefer_dark_mode" false ]

/-- These are the rows from `NSOPTION_SYS_COLOUR_START` to `NSOPTION_SYS_COLOUR_END`. -/
def sysColours : List NsoptionS :=
  [ NSOPTION_COLOUR "sys_colour_ActiveBorder" 0x00d3d3d3,
    NSOPTION_COLOUR "sys_colour_ActiveCaption" 0x00f1f1f1,
    NSOPTION_COLOUR "sys_colour_AppWorkspace" 0x00f1f1f1,
    NSOPTION_COLOUR "sys_colour_Background" 0x006e6e6e,
    NSOPTION_COLOUR "sys_colour_ButtonFace" 0x00f9f9f9,
    NSOPTION_COLOUR "sys_colour_ButtonHighlight" 0x00ffffff,
    NSOPTION_COLOUR "sys_colour_ButtonShadow" 0x00aeaeae,
    NSOPTION_COLOUR "sys_colour_ButtonText" 0x004c4c4c,
    NSOPTION_COLOUR "sys_colour_CaptionText" 0x004c4c4c,
    NSOPTION_COLOUR "sys_colour_GrayText" 0x00505050,
    NSOPTION_COLOUR "sys_colour_Highlight" 0x00c00800,
    NSOPTION_COLOUR "sys_colour_HighlightText" 0x00ffffff,
    NSOPTION_COLOUR "sys_colour_InactiveBorder" 0x00f1f1f1,
    NSOPTION_COLOUR "sys_colour_InactiveCaption" 0x00e6e6e6,
    NSOPTION_COLOUR "sys_colour_InactiveCaptionText" 0x00a6a6a6,
    NSOPTION_COLOUR "sys_colour_InfoBackground" 0x008fdfef,
    NSOPTION_COLOUR "sys_colour_InfoText" 0x00000000,
    NSOPTION_COLOUR "sys_colour_Menu" 0x00f1f1f1,
    NSOPTION_COLOUR "sys_colour_MenuText" 0x004e4e4e,
    NSOPTION_COLOUR "sys_colour_Scrollbar" 0x00cccccc,
    NSOPTION_COLOUR "sys_colour_ThreeDDarkShadow" 0x00aeaeae,
    NSOPTION_COLOUR "sys_colour_ThreeDFace" 0x00f9f9f9,
    NSOPTION_COLOUR "sys_colour_ThreeDHighlight" 0x00ffffff,
    NSOPTION_COLOUR "sys_colour_ThreeDLightShadow" 0x00ffffff,
    NSOPTION_COLOUR "sys_colour_ThreeDShadow" 0x00d5d5d5,
    NSOPTION_COLOUR "sys_colour_Window" 0x00f1f1f1,
    NSOPTION_COLOUR "sys_colour_WindowFrame" 0x004e4e4e,
    NSOPTION_COLOUR "sys_colour_WindowText" 0x00000000 ]

/-- These are the options of `gtk/options.h`. -/
def gtkOptions : List NsoptionS :=
  [ NSOPTION_BOOL "downloads_clear" false,
    NSOPTION_BOOL "request_overwrite" true,
    NSOPTION_STRING "downloads_directory" none,
    NSOPTION_STRING "url_file" none,
    NSOPTION_BOOL "show_single_tab" false,
    NSOPTION_INTEGER "button_type" 0,
    NSOPTION_BOOL "disable_popups" false,
    NSOPTION_INTEGER "history_age" 0,
    NSOPTION_BOOL "hover_urls" false,
    NSOPTION_BOOL "focus_new" false,
    NSOPTION_BOOL "new_blank" false,
    NSOPTION_STRING "hotlist_path" none,
    NSOPTION_INTEGER "developer_view" 0,
    NSOPTION_INTEGER "position_tab" 0,
    NSOPTION_STRING "toolbar_items" none,
    NSOPTION_STRING "bar_show" none ]

/-- These are the options of `visurf/options.h`. -/
def visurfOptions : List NsoptionS :=
  [ NSOPTION_BOOL "downloads_clear" false,
    NSOPTION_BOOL "request_overwrite" true,
    NSOPTION_STRING "downloads_directory" none,
    NSOPTION_STRING "url_file" none,
    NSOPTION_BOOL "show_single_tab" false,
    NSOPTION_INTEGER "button_type" 0,
    NSOPTION_BOOL "disable_popups" false,
    NSOPTION_INTEGER "history_age" 0,
    NSOPTION_BOOL "hover_urls" false,
    NSOPTION_BOOL "focus_new" false,
    NSOPTION_BOOL "new_blank" false,
    NSOPTION_STRING "hotlist_path" none,
    NSOPTION_BOOL "source_tab" false,
    NSOPTION_INTEGER "current_theme" 0 ]

/-- The frontend that the table is compiled for. -/
inductive Frontend where
  | gtk | visurf
  deriving DecidableEq, Repr

def frontendOptions : Frontend → List NsoptionS
  | .gtk => gtkOptions
  | .visurf => visurfOptions

/-- This is the table of compiled in default options. -/
def defaults (frontend : Frontend) : List NsoptionS :=
  coreOptions ++ sysColours ++ frontendOptions frontend

/-- Red and blue change places, and the other bits are lost. -/
def rbSwap (c : UInt32) : UInt32 :=
  ((0x000000FF &&& c) <<< 16) ||| ((0x0000FF00 &&& c) <<< 0) ||| ((0x00FF0000 &&& c) >>> 16)

/-- This is `strtooption`, which keeps a colour that it cannot read. -/
def strtooption (value : Bytes) : OptionValue → OptionValue
  | .bool _ => .bool (value.head? == some (chr '1'))
  | .integer _ => .integer (Int32.ofInt (atoi value))
  | .uint _ => .uint (strtoul value).toUInt32
  | .colour c =>
      match sscanfHex value with
      | some rgbcolour => .colour (rbSwap rgbcolour)
      | none => .colour c
  | .string _ => .string (OptionText.strdup? value)

/-- The row with this name gets another value. -/
def NsoptionS.changed (name : String) (change : OptionValue → OptionValue) (o : NsoptionS) :
    NsoptionS :=
  if o.key = literal name then { o with value := change o.value } else o

/-- An integer outside these limits is replaced by the limit. -/
def clampInteger (low high : Int32) : OptionValue → OptionValue
  | .integer i =>
      let i := if i < low then low else i
      .integer (if high < i then high else i)
  | value => value

/-- No negative integer is kept. -/
def atLeastZero : OptionValue → OptionValue
  | .integer i => .integer (if i < 0 then 0 else i)
  | value => value

/-- At least one attempt is allowed. -/
def atLeastOne : OptionValue → OptionValue
  | .uint u => .uint (if u = 0 then 1 else u)
  | value => value

def clampUint (low high : UInt32) : OptionValue → OptionValue
  | .uint u =>
      let u := if u < low then low else u
      .uint (if high < u then high else u)
  | value => value

/-- This is the loop that gives up attempts while they could take over a minute in all. -/
def fewerRetries (timeout : UInt32) : Nat → Nat
  | 0 => 0
  | u + 1 =>
      if 60 < timeout.toNat * (u + 1) % 2 ^ 32 ∧ 1 < u + 1 then fewerRetries timeout u else u + 1

def limitRetries (timeout : UInt32) : OptionValue → OptionValue
  | .uint u => .uint (fewerRetries timeout u.toNat).toUInt32
  | value => value

/-- The unsigned value of a row, which the table has. -/
def uintAt (opts : List NsoptionS) (name : String) : UInt32 :=
  match opts.find? fun o => o.key = literal name with
  | some ⟨_, .uint u⟩ => u
  | _ => 0

def isSysColour (key : Bytes) : Bool := (sysColours.map NsoptionS.key).contains key

/-- All system colours are black, which old configuration files had. -/
def isBlack (opts : List NsoptionS) : Bool :=
  opts.all fun o => !isSysColour o.key || o.value == .colour 0

/-- The system colours of the default table are put in place. -/
def returnColours (opts defs : List NsoptionS) : List NsoptionS :=
  opts.zipWith (fun o d => if isSysColour o.key then { o with value := d.value } else o) defs

/-- These are the first checks of `nsoption_validate`. -/
def clampSizes (opts : List NsoptionS) : List NsoptionS :=
  let opts := opts.map (NsoptionS.changed "treeview_font_size" (clampInteger 50 1000))
  let opts := opts.map (NsoptionS.changed "font_size" (clampInteger 50 1000))
  let opts := opts.map (NsoptionS.changed "font_min_size" (clampInteger 10 500))
  opts.map (NsoptionS.changed "memory_cache_size" atLeastZero)

/-- These are its last ones. -/
def limitFetches (opts : List NsoptionS) : List NsoptionS :=
  let opts := opts.map (NsoptionS.changed "max_retried_fetches" atLeastOne)
  let opts := opts.map (NsoptionS.changed "curl_fetch_timeout" (clampUint 5 60))
  opts.map (NsoptionS.changed "max_retried_fetches"
    (limitRetries (uintAt opts "curl_fetch_timeout")))

/-- This is `nsoption_validate`. -/
def nsoptionValidate (opts : List NsoptionS) (defs : Option (List NsoptionS)) : List NsoptionS :=
  let opts := clampSizes opts
  let opts :=
    match defs with
    | some defs => if isBlack opts then returnColours opts defs else opts
    | none => opts
  limitFetches opts

/-- This is `nsoption_is_set` for a row of both tables. -/
def nsoptionIsSet (opt default : OptionValue) : Bool :=
  match opt, default with
  | .bool b, .bool d => b != d
  | .integer i, .integer d => i != d
  | .uint u, .uint d => u != d
  | .colour c, .colour d => c != d
  | .string s, .string d =>
      match s, d with
      | none, none => false
      | some s, some d => strcmp s.bytes d.bytes != .eq
      | _, _ => true
  | _, _ => false

/-- This is the text of a value in a file. -/
def printValue : OptionValue → Bytes
  | .bool b => [if b then chr '1' else chr '0']
  | .integer i => printInt i.toInt
  | .uint u => str (toString u.toNat)
  | .colour c => printHex6 (rbSwap c).toNat
  | .string s => s.elim [] OptionText.bytes

def printLine (o : NsoptionS) : Bytes := o.key ++ [chr ':'] ++ printValue o.value ++ [LF]

/-- This is `nsoption_output`. -/
def nsoptionOutput (opts defs : List NsoptionS) (all : Bool) : Bytes :=
  (opts.zip defs).flatMap fun (o, d) =>
    if all == false && nsoptionIsSet o.value d.value == false then [] else printLine o

def isBlank (c : Byte) : Bool := c == chr ' ' || c == 9 || c == LF

/-- This is `get_key_value`, for a line without its NUL. -/
def getKeyValue (line : Bytes) : Except Nserror (Bytes × Bytes) :=
  let key := line.dropWhile isBlank
  match key.head? with
  | none => .error .notFound
  | some c =>
      if c = chr '#' then .error .notFound
      else
        let value := (key.dropWhile (· ≠ chr ':')).tail
        if value = [] then .error .invalid
        else
          .ok (key.takeWhile (· ≠ chr ':'),
            if line.getLast? = some LF then value.dropLast else value)

/-- This is `optionline`, which changes the first row with the key of the line. -/
def optionline (opts : List NsoptionS) (line : Bytes) : Nserror × List NsoptionS :=
  match getKeyValue line with
  | .error res => (res, opts)
  | .ok (key, value) =>
      (.ok, opts.changeFirst (fun o => strcasecmp key o.key == .eq)
        fun o => { o with value := strtooption value o.value })

/-- This is the length of the line buffer. -/
def NSOPTION_MAX_LINE_LEN : Nat := 1024

/-- This is the loop over the lines of a file, of which each has a byte at least. -/
def readLines : Nat → Bytes → List NsoptionS → List NsoptionS
  | 0, _, opts => opts
  | fuel + 1, file, opts =>
      match fgets NSOPTION_MAX_LINE_LEN file with
      | none => opts
      | some (line, rest) => readLines fuel rest (optionline opts (cstr line)).2

/-- These are the global tables `nsoptions` and `nsoptions_default`. -/
structure Globals where
  nsoptions : Option (List NsoptionS)
  nsoptionsDefault : Option (List NsoptionS)

/-- This is `nsoption_read`, where the file may fail to open. -/
def nsoptionRead (globals : Globals) (path : Option Bytes) (opts : Option (List NsoptionS))
    (file : Option Bytes) : Except Nserror (List NsoptionS) :=
  if path = none then .error .badParameter
  else
    match opts <|> globals.nsoptions, globals.nsoptionsDefault with
    | some opts, some defs =>
        match file with
        | none => .error .notFound
        | some file => .ok (nsoptionValidate (readLines file.length file opts) (some defs))
    | _, _ => .error .badParameter

/-- This is `nsoption_write`, with the bytes of the file it opened. -/
def nsoptionWrite (globals : Globals) (path : Option Bytes) (opts defs : Option (List NsoptionS))
    (opened : Bool) : Except Nserror Bytes :=
  if path = none then .error .badParameter
  else
    match opts <|> globals.nsoptions, defs <|> globals.nsoptionsDefault with
    | some opts, some defs =>
        if opened then .ok (nsoptionOutput opts defs false) else .error .notFound
    | _, _ => .error .badParameter

end Nsoption

end Neosurf
