import AuthEncryption.Bytes.Basic
import AuthEncryption.Bytes.Word
import AuthEncryption.Bytes.Fixed
import AuthEncryption.Check
import AuthEncryption.Buffer
import AuthEncryption.Random
import AuthEncryption.Secret
import AuthEncryption.Nonce
import AuthEncryption.Cipher.Subkey
import AuthEncryption.Cipher.Selected
import AuthEncryption.Cipher.Buffered
import AuthEncryption.Poly1305.Authenticator
import AuthEncryption.Poly1305.Buffered
import AuthEncryption.Aes.Schedule
import AuthEncryption.Ghash
import AuthEncryption.Aead.Forms
import AuthEncryption.SecretBox
import AuthEncryption.SecretStream.Chunk
import AuthEncryption.Allocating
import AuthEncryption.Transfer.Source
import AuthEncryption.Transfer.Writer
import AuthEncryption.Transfer.Pipe
import AuthEncryption.Proofs.Keystream.Calls
import AuthEncryption.Proofs.Aead.Inverse
import AuthEncryption.Proofs.Aead.Forms
import AuthEncryption.Proofs.Aead.Openings
import AuthEncryption.Proofs.SecretStream.Inverse
import AuthEncryption.Proofs.SecretStream.Order
import AuthEncryption.Proofs.Words
import AuthEncryption.Proofs.Horner
import AuthEncryption.Proofs.Poly1305.Limbs
import AuthEncryption.Proofs.Poly1305.Polynomial
import AuthEncryption.Proofs.SecretStream.Lockstep
import AuthEncryption.Proofs.SecretStream.Atomic
import AuthEncryption.Proofs.SecretStream.Ending
import AuthEncryption.Proofs.Counters
import AuthEncryption.Proofs.SecretStream.Epochs
import AuthEncryption.Proofs.TwoRuns
import AuthEncryption.Proofs.SecretStream.Reports
import AuthEncryption.Proofs.Transfer.RoundTrip
import AuthEncryption.Proofs.Transfer.Truncation
import AuthEncryption.Proofs.Transfer.Release
import AuthEncryption.Proofs.Transfer.Encrypting
import AuthEncryption.Proofs.Transfer.Acknowledged
import AuthEncryption.Proofs.Transfer.Fragments
import AuthEncryption.Proofs.Transfer.Reports
import AuthEncryption.Proofs.SecretBox
import AuthEncryption.Proofs.MacInput
import AuthEncryption.Proofs.Gcm
import AuthEncryption.Proofs.Ghash.Field
import AuthEncryption.Proofs.Ghash.Polynomial
import AuthEncryption.Proofs.Keystream.Buffered
import AuthEncryption.Proofs.Poly1305.Places
import AuthEncryption.Proofs.Allocating
import AuthEncryption.Proofs.Admissible
import AuthEncryption.Proofs.Irreducible
import AuthEncryption.Proofs.Aes.Residues
import AuthEncryption.Proofs.Aes.Standard
import AuthEncryption.Proofs.SecretStream.Layout
import AuthEncryption.Proofs.SecretStream.Wraparound
import AuthEncryption.Proofs.Transfer.Wire
import AuthEncryption.Proofs.Transfer.Sizes
import AuthEncryption.Proofs.Keystream.Places
import AuthEncryption.Proofs.Keystream.Inputs
import AuthEncryption.Proofs.Keystream.Layouts
import AuthEncryption.Proofs.Aead.Placement
import AuthEncryption.Proofs.Poly1305.Chunks
import AuthEncryption.Proofs.Poly1305.Ranges
import AuthEncryption.Proofs.Random
import AuthEncryption.Proofs.Keystream.Selected
import AuthEncryption.Proofs.Transfer.Turns
import AuthEncryption.Proofs.Transfer.Bounds
