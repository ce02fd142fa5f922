import CodecDocs.Text.Ranges

/-! White space: the code points with the Unicode property `White_Space`, and trimming of them. -/

namespace CodecDocs.Text

def blanks : Ranges :=
  [(0x9, 0xd), (0x20, 0x20), (0x85, 0x85), (0xa0, 0xa0), (0x1680, 0x1680), (0x2000, 0x200a),
    (0x2028, 0x2029), (0x202f, 0x202f), (0x205f, 0x205f), (0x3000, 0x3000)]

def isBlank (c : Char) : Bool := blanks.contains c.toNat

def trimStart (text : List Char) : List Char := text.dropWhile isBlank

def trimEnd (text : List Char) : List Char := (text.reverse.dropWhile isBlank).reverse

/-- Text without the white space at both of its ends. -/
def trim (text : List Char) : List Char := trimEnd (trimStart text)

end CodecDocs.Text
