import Mountin.Detect.Tree

set_option autoImplicit false

/-! # 2IMG images

`twoimg.rs`: a header that records where the disk data starts and how long it is, and one
child that is a window of the image.
-/

namespace Mountin.TwoImg

/-- `MAGIC`: "2IMG". -/
def MAGIC : Bytes := [0x32, 0x49, 0x4d, 0x47]

/-- `HEADER_MIN`: through the data-length field. -/
def HEADER_MIN : Nat := 0x20

/-- `le32`. -/
def le32 (b : Bytes) (off : Nat) : Nat := Bytes.le (b.slice off 4)

/-- `parse_header`: data offset and data length. -/
def parseHeader (reader : Reader) : Except IoError (Nat × Nat) :=
  match reader.readAt 0 HEADER_MIN with
  | .error e => .error e
  | .ok hdr =>
      if hdr.length ≠ HEADER_MIN then .error (.invalidData "2IMG header truncated")
      else if hdr.slice 0 4 ≠ MAGIC then .error (.invalidData "not a 2IMG image")
      else
        let dataOff := le32 hdr 0x18
        let dataLen := le32 hdr 0x1C
        if dataLen = 0 then .error (.invalidData "2IMG declares zero-length disk data")
        else
          match reader.size with
          | none => .ok (dataOff, dataLen)
          | some total =>
              -- the data region must lie within the file
              if total ≤ dataOff ∨ total < dataOff + dataLen then
                .error (.invalidData "2IMG disk data runs past end of file")
              else .ok (dataOff, dataLen)

/-- `TWOIMG`. -/
def TWOIMG : Container := fun reader =>
  match parseHeader reader with
  | .error e => .error e
  | .ok (dataOff, dataLen) =>
      .ok [{ index := 0, offset := dataOff, view := .slice dataOff dataLen }]

end Mountin.TwoImg
