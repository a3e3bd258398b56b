/-
# The relocation stub

The stub stands ahead of a self-relocating image. The relocation table follows
it, and then the program, laid out from address 0. Each table entry is the
offset of a word in the program; the stub adds the address of the program to
all these words and jumps to it.
-/
import WordAsm.Build.Compile

namespace WordAsm

def stubSource : String :=
"; self-relocation stub
        .equ  STUB_SIZE  stub_end - stub
stub:   mov   s0, pc            ; pc is past this word
        sub   s0, 1             ; s0 = stub load address
        mov   s1, s0
        add   s1, STUB_SIZE     ; s1 = relocation table
        ld    s2, s1            ; s2 = entry count
        add   s1, 1
        mov   s3, s1
        add   s3, s2            ; s3 = program base
        mov   t2, s0
        add   t2, next - stub
        mov   t3, s0
        add   t3, done - stub
next:   jz    s2, t3
        ld    t0, s1
        add   t0, s3            ; t0 = word to patch
        ld    t1, t0
        add   t1, s3
        st    t1, t0
        add   s1, 1
        sub   s2, 1
        jmp   t2
done:   jmp   s3
stub_end:
"

/-- The object code that a source text of its own assembles to, if it does. -/
def assembleText (name source : String) : Option Bytes :=
  let (_, b) := compile {} (.ofResources [.text name source]) {}
  (b.get? 0).bind fun unit => unit.code.bind fun code =>
    (code.resource.readBytes b.tree).toOption

def stub : Bytes := (assembleText "stub.rk" stubSource).getD []

end WordAsm
